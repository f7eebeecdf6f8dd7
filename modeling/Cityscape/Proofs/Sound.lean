import Cityscape.Ingestion.Spans
import Cityscape.Proofs.Grows
import Mathlib.Algebra.Group.Nat.Defs

/-!
# `Sound`: what holds of every store that ingestion can reach

A store is sound when its ids have been handed out, its keys are unique, every id that a node
mentions is that of a node which exists, and the directories and files form trees. Tokens are
kept apart by `owner`, which tells under which token an id was handed out: a node mentions ids of
its own token only, tags excepted.

The conditions on one node (`Commit.Fits` and the like) speak of the other nodes only in ways
that survive when those grow. So they carry over to every store that has grown out of the first
one, and a change has to be looked at only where it happens.
-/

namespace Cityscape

/-! ## Conditions on one node -/

/-- A function that traces have shown has the last part of its qualified name as its name. -/
def FunctionNode.Named (g : FunctionNode) : Prop :=
  ∀ fqn, g.fqn = some fqn → (splitName fqn).getLast? = some g.name

/-- The function may be one of a file: if traces have shown it, its qualified name names a file
before the function. -/
def FunctionNode.InFiles (g : FunctionNode) : Prop :=
  ∀ fqn, g.fqn = some fqn → (splitName fqn).dropLast ≠ []

section Fits

variable (owner : NodeId → String) (s : Store)

/-- The root of a repository is the top of a tree, and its commits and branches exist. -/
structure Repository.Fits (r : Repository) : Prop where
  own : owner r.id = r.token
  root : ∃ d, s.directories.get? r.rootDirectory = some d ∧ d.parent = none
  rootOwn : owner r.rootDirectory = r.token
  commits : ∀ c ∈ r.commits, ∃ x, s.commits.get? c = some x ∧ x.token = r.token
  branches : ∀ b ∈ r.branches, ∃ x, s.branches.get? b = some x ∧ x.repository = r.id

/-- The repository of a branch exists and contains it. -/
structure Branch.Fits (b : Branch) : Prop where
  own : owner b.id = owner b.repository
  repository : ∃ r, s.repositories.get? b.repository = some r ∧ b.id ∈ r.branches

/-- What a commit refers to exists, and its files have a hash. -/
structure Commit.Fits (c : Commit) : Prop where
  own : owner c.id = c.token
  branch : ∀ b, c.branch = some b → ∃ x, s.branches.get? b = some x ∧ owner b = c.token
  parents : ∀ p ∈ c.parents, ∃ x, s.commits.get? p = some x ∧ x.token = c.token
  files : ∀ f ∈ c.fileRevisions, ∃ x, s.files.get? f = some x ∧ x.hash.isSome ∧ owner f = c.token
  tags : ∀ t ∈ c.tags, ∃ x, s.tags.get? t = some x

/-- A directory and what it contains know each other. Its parent is older than it is, and its
subdirectories have different names. -/
structure Directory.Fits (d : Directory) : Prop where
  subdirectories : ∀ x ∈ d.subdirectories,
    ∃ c, s.directories.get? x = some c ∧ c.parent = some d.id ∧ owner x = owner d.id
  fileRevisions : ∀ x ∈ d.fileRevisions,
    ∃ f, s.files.get? x = some f ∧ f.parent = some d.id ∧ owner x = owner d.id
  parent : ∀ p, d.parent = some p →
    ∃ e, s.directories.get? p = some e ∧ d.id ∈ e.subdirectories ∧ p.val < d.id.val
  siblings : ∀ x ∈ d.subdirectories, ∀ y ∈ d.subdirectories, ∀ c e,
    s.directories.get? x = some c → s.directories.get? y = some e → c.name = e.name → x = y

/-- A file hangs below a directory, and its classes and functions exist. Functions whose name
is all that traces have shown are in no file. -/
structure FileRevision.Fits (f : FileRevision) : Prop where
  parent : ∃ p e, f.parent = some p ∧ s.directories.get? p = some e ∧ f.id ∈ e.fileRevisions
  classes : ∀ x ∈ f.classes, ∃ c, s.classes.get? x = some c ∧ owner x = owner f.id
  functions : ∀ x ∈ f.functions, ∃ g, s.functions.get? x = some g ∧ owner x = owner f.id
  inFiles : ∀ x ∈ f.functions, ∀ g, s.functions.get? x = some g → g.InFiles

/-- The members and super classes of a class exist. -/
structure ClassNode.Fits (c : ClassNode) : Prop where
  functions : ∀ x ∈ c.functions, ∃ g, s.functions.get? x = some g ∧ owner x = owner c.id
  innerClasses : ∀ x ∈ c.innerClasses, ∃ e, s.classes.get? x = some e ∧ owner x = owner c.id
  superClasses : ∀ x ∈ c.superClasses, ∃ e, s.classes.get? x = some e ∧ owner x = owner c.id

/-- The root and the repository of an application exist. -/
structure Application.Fits (a : Application) : Prop where
  own : owner a.id = a.token
  root : ∃ d, s.directories.get? a.rootDirectory = some d ∧ owner a.rootDirectory = a.token
  repository : ∀ r, a.repository = some r →
    ∃ x, s.repositories.get? r = some x ∧ x.token = a.token

/-- The spans of a trace exist. -/
structure Trace.Fits (t : Trace) : Prop where
  own : owner t.id = t.token
  spans : ∀ p ∈ t.spans, ∃ x, s.spans.get? p = some x ∧ x.token = t.token

/-- What a span refers to exists. -/
structure Span.Fits (p : Span) : Prop where
  own : owner p.id = p.token
  caller : ∀ q, p.parentSpan = some q → ∃ x, s.spans.get? q = some x ∧ x.token = p.token
  function : ∀ f, p.function = some f → ∃ x, s.functions.get? f = some x ∧ owner f = p.token
  application : ∀ a, p.application = some a →
    ∃ x, s.applications.get? a = some x ∧ x.token = p.token

end Fits

/-! ## The conditions survive growth -/

section Mono

variable {owner : NodeId → String} {s s' : Store}

theorem Repository.Fits.mono {r : Repository} (h : r.Fits owner s) (g : s.Grows s') :
    r.Fits owner s' where
  own := h.own
  root := by
    obtain ⟨d, hd, hp⟩ := h.root
    obtain ⟨d', hd', hk⟩ := g.directories _ _ hd
    exact ⟨d', hd', hk.parent.trans hp⟩
  rootOwn := h.rootOwn
  commits c hc := by
    obtain ⟨x, hx, ht⟩ := h.commits c hc
    obtain ⟨x', hx', hk⟩ := g.commits _ _ hx
    exact ⟨x', hx', hk.token.trans ht⟩
  branches b hb := by
    obtain ⟨x, hx, hr⟩ := h.branches b hb
    obtain ⟨x', hx', rfl⟩ := g.branches _ _ hx
    exact ⟨x, hx', hr⟩

theorem Branch.Fits.mono {b : Branch} (h : b.Fits owner s) (g : s.Grows s') :
    b.Fits owner s' where
  own := h.own
  repository := by
    obtain ⟨r, hr, hb⟩ := h.repository
    obtain ⟨r', hr', hk⟩ := g.repositories _ _ hr
    exact ⟨r', hr', hk.branches _ hb⟩

theorem Commit.Fits.mono {c : Commit} (h : c.Fits owner s) (g : s.Grows s') :
    c.Fits owner s' where
  own := h.own
  branch b hb := by
    obtain ⟨x, hx, ho⟩ := h.branch b hb
    obtain ⟨x', hx', -⟩ := g.branches _ _ hx
    exact ⟨x', hx', ho⟩
  parents p hp := by
    obtain ⟨x, hx, ht⟩ := h.parents p hp
    obtain ⟨x', hx', hk⟩ := g.commits _ _ hx
    exact ⟨x', hx', hk.token.trans ht⟩
  files f hf := by
    obtain ⟨x, hx, hh, ho⟩ := h.files f hf
    obtain ⟨x', hx', hk⟩ := g.files _ _ hx
    obtain ⟨y, hy⟩ := Option.isSome_iff_exists.1 hh
    exact ⟨x', hx', Option.isSome_iff_exists.2 ⟨y, hk.hash y hy⟩, ho⟩
  tags t ht := by
    obtain ⟨x, hx⟩ := h.tags t ht
    obtain ⟨x', hx', -⟩ := g.tags _ _ hx
    exact ⟨x', hx'⟩

theorem Directory.Fits.mono {d : Directory} (h : d.Fits owner s) (g : s.Grows s') :
    d.Fits owner s' where
  subdirectories x hx := by
    obtain ⟨c, hc, hp, ho⟩ := h.subdirectories x hx
    obtain ⟨c', hc', hk⟩ := g.directories _ _ hc
    exact ⟨c', hc', hk.parent.trans hp, ho⟩
  fileRevisions x hx := by
    obtain ⟨f, hf, hp, ho⟩ := h.fileRevisions x hx
    obtain ⟨f', hf', hk⟩ := g.files _ _ hf
    exact ⟨f', hf', hk.parent.trans hp, ho⟩
  parent p hp := by
    obtain ⟨e, he, hd, hlt⟩ := h.parent p hp
    obtain ⟨e', he', hk⟩ := g.directories _ _ he
    exact ⟨e', he', hk.subdirectories _ hd, hlt⟩
  siblings x hx y hy c e hc he hn := by
    -- subdirectories keep their names, so two that are alike now were alike before
    obtain ⟨c₀, hc₀, -⟩ := h.subdirectories x hx
    obtain ⟨e₀, he₀, -⟩ := h.subdirectories y hy
    obtain ⟨c', hc', hkc⟩ := g.directories _ _ hc₀
    obtain ⟨e', he', hke⟩ := g.directories _ _ he₀
    obtain rfl : c' = c := Option.some.inj (hc'.symm.trans hc)
    obtain rfl : e' = e := Option.some.inj (he'.symm.trans he)
    exact h.siblings x hx y hy c₀ e₀ hc₀ he₀ ((hkc.name.symm.trans hn).trans hke.name)

theorem FileRevision.Fits.mono {f : FileRevision} (h : f.Fits owner s) (g : s.Grows s') :
    f.Fits owner s' where
  parent := by
    obtain ⟨p, e, hp, he, hf⟩ := h.parent
    obtain ⟨e', he', hk⟩ := g.directories _ _ he
    exact ⟨p, e', hp, he', hk.fileRevisions _ hf⟩
  classes x hx := by
    obtain ⟨c, hc, ho⟩ := h.classes x hx
    obtain ⟨c', hc', -⟩ := g.classes _ _ hc
    exact ⟨c', hc', ho⟩
  functions x hx := by
    obtain ⟨c, hc, ho⟩ := h.functions x hx
    obtain ⟨c', hc', -⟩ := g.functions _ _ hc
    exact ⟨c', hc', ho⟩
  inFiles x hx c' hc' := by
    -- functions do not change
    obtain ⟨c, hc, -⟩ := h.functions x hx
    obtain ⟨c'', hc'', rfl⟩ := g.functions _ _ hc
    exact Option.some.inj (hc''.symm.trans hc') ▸ h.inFiles x hx c hc

theorem ClassNode.Fits.mono {c : ClassNode} (h : c.Fits owner s) (g : s.Grows s') :
    c.Fits owner s' where
  functions x hx := by
    obtain ⟨y, hy, ho⟩ := h.functions x hx
    obtain ⟨y', hy', -⟩ := g.functions _ _ hy
    exact ⟨y', hy', ho⟩
  innerClasses x hx := by
    obtain ⟨y, hy, ho⟩ := h.innerClasses x hx
    obtain ⟨y', hy', -⟩ := g.classes _ _ hy
    exact ⟨y', hy', ho⟩
  superClasses x hx := by
    obtain ⟨y, hy, ho⟩ := h.superClasses x hx
    obtain ⟨y', hy', -⟩ := g.classes _ _ hy
    exact ⟨y', hy', ho⟩

theorem Application.Fits.mono {a : Application} (h : a.Fits owner s) (g : s.Grows s') :
    a.Fits owner s' where
  own := h.own
  root := by
    obtain ⟨d, hd, ho⟩ := h.root
    obtain ⟨d', hd', -⟩ := g.directories _ _ hd
    exact ⟨d', hd', ho⟩
  repository r hr := by
    obtain ⟨x, hx, ht⟩ := h.repository r hr
    obtain ⟨x', hx', hk⟩ := g.repositories _ _ hx
    exact ⟨x', hx', hk.token.trans ht⟩

theorem Trace.Fits.mono {t : Trace} (h : t.Fits owner s) (g : s.Grows s') :
    t.Fits owner s' where
  own := h.own
  spans p hp := by
    obtain ⟨x, hx, ht⟩ := h.spans p hp
    obtain ⟨x', hx', hk⟩ := g.spans _ _ hx
    exact ⟨x', hx', hk.token.trans ht⟩

theorem Span.Fits.mono {p : Span} (h : p.Fits owner s) (g : s.Grows s') :
    p.Fits owner s' where
  own := h.own
  caller q hq := by
    obtain ⟨x, hx, ht⟩ := h.caller q hq
    obtain ⟨x', hx', hk⟩ := g.spans _ _ hx
    exact ⟨x', hx', hk.token.trans ht⟩
  function f hf := by
    obtain ⟨x, hx, ho⟩ := h.function f hf
    obtain ⟨x', hx', -⟩ := g.functions _ _ hx
    exact ⟨x', hx', ho⟩
  application a ha := by
    obtain ⟨x, hx, ht⟩ := h.application a ha
    obtain ⟨x', hx', hk⟩ := g.applications _ _ hx
    exact ⟨x', hx', hk.token.trans ht⟩

end Mono

/-! ## Conditions on the whole store -/

/-- The first `n` ids have been handed out, and this is one of them. -/
def NodeId.Issued (n : Nat) (id : NodeId) : Prop := id.val.toNat ≤ n

theorem NodeId.Issued.mono {n m : Nat} {id : NodeId} (h : id.Issued n) (hm : n ≤ m) :
    id.Issued m := Nat.le_trans h hm

namespace Store

/-- The ids of all nodes are among the first `n`. -/
structure Within (n : Nat) (s : Store) : Prop where
  repositories : ∀ x ∈ s.repositories, x.id.Issued n
  branches : ∀ x ∈ s.branches, x.id.Issued n
  commits : ∀ x ∈ s.commits, x.id.Issued n
  tags : ∀ x ∈ s.tags, x.id.Issued n
  directories : ∀ x ∈ s.directories, x.id.Issued n
  files : ∀ x ∈ s.files, x.id.Issued n
  classes : ∀ x ∈ s.classes, x.id.Issued n
  functions : ∀ x ∈ s.functions, x.id.Issued n
  applications : ∀ x ∈ s.applications, x.id.Issued n
  traces : ∀ x ∈ s.traces, x.id.Issued n
  spans : ∀ x ∈ s.spans, x.id.Issued n

theorem Within.mono {n m : Nat} {s : Store} (h : s.Within n) (hm : n ≤ m) : s.Within m where
  repositories x hx := (h.repositories x hx).mono hm
  branches x hx := (h.branches x hx).mono hm
  commits x hx := (h.commits x hx).mono hm
  tags x hx := (h.tags x hx).mono hm
  directories x hx := (h.directories x hx).mono hm
  files x hx := (h.files x hx).mono hm
  classes x hx := (h.classes x hx).mono hm
  functions x hx := (h.functions x hx).mono hm
  applications x hx := (h.applications x hx).mono hm
  traces x hx := (h.traces x hx).mono hm
  spans x hx := (h.spans x hx).mono hm

/-- All ids are among the first `n`, and the next one to hand out follows them. -/
structure Numbered (n : Nat) (s : Store) : Prop extends s.Within n where
  next : s.nextId = UInt64.ofNat (n + 1)

/-- No two nodes of a kind have the same key. -/
structure Keyed (s : Store) : Prop where
  repositories : s.repositories.UniqueBy fun r => (r.token, r.name)
  branches : s.branches.UniqueBy fun b => (b.repository, b.name)
  commits : s.commits.UniqueBy fun c => (c.token, c.hash)
  tags : s.tags.UniqueBy Tag.name
  applications : s.applications.UniqueBy fun a => (a.token, a.name)
  traces : s.traces.UniqueBy fun t => (t.token, t.traceId)
  spans : s.spans.UniqueBy fun p => (p.token, p.spanId)

/-- The application that is found after a new one has come in. -/
theorem Keyed.findApplication_insert {s s' : Store} {a : Application} (h : s.Keyed)
    (g : s.Grows s') (happ : s'.applications = s.applications.insert a)
    (hfresh : s.findApplication a.token a.name = none) (token app : String) :
    s'.findApplication token app
      = if (a.token, a.name) = (token, app) then some a else s.findApplication token app := by
  have ha : a ∈ s'.applications := by
    rw [happ]
    exact Sorted.mem_insert_self _ _
  unfold findApplication
  rw [happ]
  refine h.applications.find?_insert (fun x hx => ?_) token app
  have hother := Sorted.find?_pair_eq_none_iff.1 hfresh x hx
  refine ⟨fun hid => ?_, fun hkey => absurd hkey hother⟩
  obtain ⟨x', hx', hk⟩ := g.applications.mem hx
  obtain rfl := Sorted.eq_of_key_eq hx' ha (hk.id.trans hid)
  exact Prod.ext hk.token.symm hk.name.symm

/-- Every node of the first store fits the nodes of the second one. -/
structure Fitting (owner : NodeId → String) (s s' : Store) : Prop where
  repositories : ∀ x ∈ s.repositories, x.Fits owner s'
  branches : ∀ x ∈ s.branches, x.Fits owner s'
  commits : ∀ x ∈ s.commits, x.Fits owner s'
  directories : ∀ x ∈ s.directories, x.Fits owner s'
  files : ∀ x ∈ s.files, x.Fits owner s'
  classes : ∀ x ∈ s.classes, x.Fits owner s'
  functions : ∀ x ∈ s.functions, x.Named
  applications : ∀ x ∈ s.applications, x.Fits owner s'
  traces : ∀ x ∈ s.traces, x.Fits owner s'
  spans : ∀ x ∈ s.spans, x.Fits owner s'

theorem Fitting.mono {owner : NodeId → String} {s s' s'' : Store} (h : s.Fitting owner s')
    (g : s'.Grows s'') : s.Fitting owner s'' where
  repositories x hx := (h.repositories x hx).mono g
  branches x hx := (h.branches x hx).mono g
  commits x hx := (h.commits x hx).mono g
  directories x hx := (h.directories x hx).mono g
  files x hx := (h.files x hx).mono g
  classes x hx := (h.classes x hx).mono g
  functions := h.functions
  applications x hx := (h.applications x hx).mono g
  traces x hx := (h.traces x hx).mono g
  spans x hx := (h.spans x hx).mono g

/-- The store is in order after `n` ids have been handed out. -/
structure Sound (owner : NodeId → String) (n : Nat) (s : Store) : Prop where
  numbered : s.Numbered n
  keyed : s.Keyed
  fitting : s.Fitting owner s

/-- The empty store is sound. -/
theorem sound_empty (owner : NodeId → String) : (∅ : Store).Sound owner 0 where
  numbered :=
    { (by constructor <;> exact fun x hx => absurd hx (Sorted.not_mem_empty x) :
        (∅ : Store).Within 0) with next := rfl }
  keyed := by constructor <;> exact fun x hx => absurd hx (Sorted.not_mem_empty x)
  fitting := by constructor <;> exact fun x hx => absurd hx (Sorted.not_mem_empty x)

/-! ## Ids that are not in use -/

theorem Numbered.next_toNat {n : Nat} {s : Store} (h : s.Numbered n) (hn : n + 1 < 2 ^ 64) :
    s.nextId.toNat = n + 1 := by
  rw [h.next, UInt64.toNat_ofNat_of_lt' hn]

theorem Numbered.next_next_toNat {n : Nat} {s : Store} (h : s.Numbered n) (hn : n + 2 < 2 ^ 64) :
    (s.nextId + 1).toNat = n + 2 := by
  rw [UInt64.toNat_add, h.next_toNat (by omega), UInt64.toNat_one, Nat.mod_eq_of_lt hn]

theorem Numbered.issued_next {n : Nat} {s : Store} (h : s.Numbered n) (hn : n + 1 < 2 ^ 64) :
    NodeId.Issued (n + 1) ⟨s.nextId⟩ := Nat.le_of_eq (h.next_toNat hn)

theorem Numbered.issued_next_next {n : Nat} {s : Store} (h : s.Numbered n)
    (hn : n + 2 < 2 ^ 64) : NodeId.Issued (n + 2) ⟨s.nextId + 1⟩ :=
  Nat.le_of_eq (h.next_next_toNat hn)

theorem Numbered.next_add_one {n : Nat} {s : Store} (h : s.Numbered n) :
    s.nextId + 1 = UInt64.ofNat (n + 1 + 1) := by
  rw [h.next, UInt64.ofNat_add (n + 1) 1]
  rfl

theorem Numbered.next_add_two {n : Nat} {s : Store} (h : s.Numbered n) :
    s.nextId + 1 + 1 = UInt64.ofNat (n + 2 + 1) := by
  rw [h.next_add_one, UInt64.ofNat_add (n + 2) 1]
  rfl

/-- No node has an id that has not been handed out. -/
theorem get?_eq_none_of_issued {n : Nat} {α : Type} {key : α → NodeId} {t : Sorted key}
    (ht : ∀ x ∈ t, (key x).Issued n) {id : NodeId} (hid : n < id.val.toNat) :
    t.get? id = none := by
  rw [Sorted.get?_eq_none_iff]
  intro x hx he
  exact Nat.not_le_of_lt hid (he ▸ ht x hx)

theorem Numbered.get?_next {n : Nat} {s : Store} {α : Type} {key : α → NodeId} {t : Sorted key}
    (h : s.Numbered n) (hn : n + 1 < 2 ^ 64) (ht : ∀ x ∈ t, (key x).Issued n) :
    t.get? ⟨s.nextId⟩ = none :=
  get?_eq_none_of_issued ht (by rw [h.next_toNat hn]; omega)

theorem Numbered.get?_next_next {n : Nat} {s : Store} {α : Type} {key : α → NodeId}
    {t : Sorted key} (h : s.Numbered n) (hn : n + 2 < 2 ^ 64) (ht : ∀ x ∈ t, (key x).Issued n) :
    t.get? ⟨s.nextId + 1⟩ = none :=
  get?_eq_none_of_issued ht (by rw [h.next_next_toNat hn]; omega)

theorem Numbered.ne_next {n : Nat} {s : Store} (h : s.Numbered n) (hn : n + 1 < 2 ^ 64)
    {id : NodeId} (hid : id.Issued n) : id ≠ ⟨s.nextId⟩ := by
  rintro rfl
  rw [NodeId.Issued, h.next_toNat hn] at hid
  omega

theorem Numbered.lt_next {n : Nat} {s : Store} (h : s.Numbered n) (hn : n + 1 < 2 ^ 64)
    {id : NodeId} (hid : id.Issued n) : id.val < s.nextId := by
  rw [UInt64.lt_iff_toNat_lt, h.next_toNat hn]
  exact Nat.lt_succ_of_le hid

end Store

end Cityscape
