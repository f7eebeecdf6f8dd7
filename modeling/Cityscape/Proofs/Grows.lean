import Cityscape.Graph.Store
import Cityscape.Proofs.Sorted
import Mathlib.Data.List.Forall2

/-!
# `Grows`: what a store keeps for ever

Nodes never vanish. They keep what identifies them, and their edge sets only gain elements. A
store that has gone through any number of changes has grown out of the one before.
-/

namespace Cityscape

/-- Every element is still there, up to `kept`. -/
def Sorted.Grows {α : Type} {key : α → NodeId} (kept : α → α → Prop) (t t' : Sorted key) : Prop :=
  ∀ i x, t.get? i = some x → ∃ x', t'.get? i = some x' ∧ kept x x'

/-- What a repository keeps for ever. -/
structure Repository.Kept (r r' : Repository) : Prop where
  id : r'.id = r.id
  token : r'.token = r.token
  name : r'.name = r.name
  rootDirectory : r'.rootDirectory = r.rootDirectory
  commits : ∀ c ∈ r.commits, c ∈ r'.commits
  branches : ∀ b ∈ r.branches, b ∈ r'.branches

/-- What a commit keeps for ever. -/
structure Commit.Kept (c c' : Commit) : Prop where
  id : c'.id = c.id
  token : c'.token = c.token
  hash : c'.hash = c.hash
  parents : ∀ p ∈ c.parents, p ∈ c'.parents
  fileRevisions : ∀ f ∈ c.fileRevisions, f ∈ c'.fileRevisions
  tags : ∀ t ∈ c.tags, t ∈ c'.tags

/-- What a directory keeps for ever. -/
structure Directory.Kept (d d' : Directory) : Prop where
  id : d'.id = d.id
  name : d'.name = d.name
  parent : d'.parent = d.parent
  subdirectories : ∀ x ∈ d.subdirectories, x ∈ d'.subdirectories
  fileRevisions : ∀ x ∈ d.fileRevisions, x ∈ d'.fileRevisions

/-- What a file revision keeps for ever. -/
structure FileRevision.Kept (f f' : FileRevision) : Prop where
  id : f'.id = f.id
  name : f'.name = f.name
  parent : f'.parent = f.parent
  hash : ∀ h, f.hash = some h → f'.hash = some h
  described : f.hasFileData = true → f'.hasFileData = true
  classes : ∀ x ∈ f.classes, x ∈ f'.classes
  functions : ∀ x ∈ f.functions, x ∈ f'.functions

/-- What a class keeps for ever. -/
structure ClassNode.Kept (c c' : ClassNode) : Prop where
  id : c'.id = c.id
  name : c'.name = c.name
  functions : ∀ x ∈ c.functions, x ∈ c'.functions
  innerClasses : ∀ x ∈ c.innerClasses, x ∈ c'.innerClasses
  superClasses : ∀ x ∈ c.superClasses, x ∈ c'.superClasses

/-- What an application keeps for ever. -/
structure Application.Kept (a a' : Application) : Prop where
  id : a'.id = a.id
  token : a'.token = a.token
  name : a'.name = a.name

/-- What a trace keeps for ever. -/
structure Trace.Kept (t t' : Trace) : Prop where
  id : t'.id = t.id
  token : t'.token = t.token
  traceId : t'.traceId = t.traceId
  spans : ∀ x ∈ t.spans, x ∈ t'.spans

/-- What a span keeps for ever. -/
structure Span.Kept (p p' : Span) : Prop where
  id : p'.id = p.id
  token : p'.token = p.token
  spanId : p'.spanId = p.spanId

namespace Store

/-- Nodes never vanish, and keep what identifies them and their edges. -/
structure Grows (s s' : Store) : Prop where
  repositories : s.repositories.Grows Repository.Kept s'.repositories
  branches : s.branches.Grows Eq s'.branches
  commits : s.commits.Grows Commit.Kept s'.commits
  tags : s.tags.Grows Eq s'.tags
  directories : s.directories.Grows Directory.Kept s'.directories
  files : s.files.Grows FileRevision.Kept s'.files
  classes : s.classes.Grows ClassNode.Kept s'.classes
  functions : s.functions.Grows Eq s'.functions
  applications : s.applications.Grows Application.Kept s'.applications
  traces : s.traces.Grows Trace.Kept s'.traces
  spans : s.spans.Grows Span.Kept s'.spans

end Store

theorem Repository.Kept.rfl {r : Repository} : r.Kept r :=
  ⟨.refl _, .refl _, .refl _, .refl _, fun _ h => h, fun _ h => h⟩

theorem Commit.Kept.rfl {c : Commit} : c.Kept c :=
  ⟨.refl _, .refl _, .refl _, fun _ h => h, fun _ h => h, fun _ h => h⟩

theorem Directory.Kept.rfl {d : Directory} : d.Kept d :=
  ⟨.refl _, .refl _, .refl _, fun _ h => h, fun _ h => h⟩

theorem FileRevision.Kept.rfl {f : FileRevision} : f.Kept f :=
  ⟨.refl _, .refl _, .refl _, fun _ h => h, fun h => h, fun _ h => h, fun _ h => h⟩

theorem ClassNode.Kept.rfl {c : ClassNode} : c.Kept c :=
  ⟨.refl _, .refl _, fun _ h => h, fun _ h => h, fun _ h => h⟩

theorem Application.Kept.rfl {a : Application} : a.Kept a := ⟨.refl _, .refl _, .refl _⟩

theorem Trace.Kept.rfl {t : Trace} : t.Kept t := ⟨.refl _, .refl _, .refl _, fun _ h => h⟩

theorem Span.Kept.rfl {p : Span} : p.Kept p := ⟨.refl _, .refl _, .refl _⟩

theorem Repository.Kept.trans {r r' r'' : Repository} (h : r.Kept r') (h' : r'.Kept r'') :
    r.Kept r'' :=
  ⟨h'.id.trans h.id, h'.token.trans h.token, h'.name.trans h.name,
    h'.rootDirectory.trans h.rootDirectory, fun _ hx => h'.commits _ (h.commits _ hx),
    fun _ hx => h'.branches _ (h.branches _ hx)⟩

theorem Commit.Kept.trans {c c' c'' : Commit} (h : c.Kept c') (h' : c'.Kept c'') : c.Kept c'' :=
  ⟨h'.id.trans h.id, h'.token.trans h.token, h'.hash.trans h.hash,
    fun _ hx => h'.parents _ (h.parents _ hx),
    fun _ hx => h'.fileRevisions _ (h.fileRevisions _ hx), fun _ hx => h'.tags _ (h.tags _ hx)⟩

theorem Directory.Kept.trans {d d' d'' : Directory} (h : d.Kept d') (h' : d'.Kept d'') :
    d.Kept d'' :=
  ⟨h'.id.trans h.id, h'.name.trans h.name, h'.parent.trans h.parent,
    fun _ hx => h'.subdirectories _ (h.subdirectories _ hx),
    fun _ hx => h'.fileRevisions _ (h.fileRevisions _ hx)⟩

theorem FileRevision.Kept.trans {f f' f'' : FileRevision} (h : f.Kept f') (h' : f'.Kept f'') :
    f.Kept f'' :=
  ⟨h'.id.trans h.id, h'.name.trans h.name, h'.parent.trans h.parent,
    fun _ hx => h'.hash _ (h.hash _ hx), fun hx => h'.described (h.described hx),
    fun _ hx => h'.classes _ (h.classes _ hx), fun _ hx => h'.functions _ (h.functions _ hx)⟩

theorem ClassNode.Kept.trans {c c' c'' : ClassNode} (h : c.Kept c') (h' : c'.Kept c'') :
    c.Kept c'' :=
  ⟨h'.id.trans h.id, h'.name.trans h.name, fun _ hx => h'.functions _ (h.functions _ hx),
    fun _ hx => h'.innerClasses _ (h.innerClasses _ hx),
    fun _ hx => h'.superClasses _ (h.superClasses _ hx)⟩

theorem Application.Kept.trans {a a' a'' : Application} (h : a.Kept a') (h' : a'.Kept a'') :
    a.Kept a'' :=
  ⟨h'.id.trans h.id, h'.token.trans h.token, h'.name.trans h.name⟩

theorem Trace.Kept.trans {t t' t'' : Trace} (h : t.Kept t') (h' : t'.Kept t'') : t.Kept t'' :=
  ⟨h'.id.trans h.id, h'.token.trans h.token, h'.traceId.trans h.traceId,
    fun _ hx => h'.spans _ (h.spans _ hx)⟩

theorem Span.Kept.trans {p p' p'' : Span} (h : p.Kept p') (h' : p'.Kept p'') : p.Kept p'' :=
  ⟨h'.id.trans h.id, h'.token.trans h.token, h'.spanId.trans h.spanId⟩

namespace Sorted.Grows

variable {α : Type} {key : α → NodeId} {kept : α → α → Prop} {t t' t'' : Sorted key}

theorem of_eq (hk : ∀ x, kept x x) (h : t' = t) : t.Grows kept t' := by
  intro i x hx
  exact ⟨x, h ▸ hx, hk x⟩

theorem trans (hk : ∀ x y z, kept x y → kept y z → kept x z) (h : t.Grows kept t')
    (h' : t'.Grows kept t'') : t.Grows kept t'' := by
  intro i x hx
  obtain ⟨y, hy, hxy⟩ := h i x hx
  obtain ⟨z, hz, hyz⟩ := h' i y hy
  exact ⟨z, hz, hk x y z hxy hyz⟩

/-- What was there is still there. -/
theorem mem (h : t.Grows kept t') {x : α} (hx : x ∈ t) : ∃ x' ∈ t', kept x x' := by
  obtain ⟨x', hget, hk⟩ := h _ x (Sorted.get?_key hx)
  exact ⟨x', Sorted.mem_of_get? hget, hk⟩

theorem insert (hk : ∀ x, kept x x) {y : α} (h : ∀ x, t.get? (key y) = some x → kept x y) :
    t.Grows kept (t.insert y) := by
  intro i x hx
  rw [Sorted.get?_insert]
  by_cases hi : i = key y
  · rw [if_pos hi]
    exact ⟨y, .refl _, h x (hi ▸ hx)⟩
  · rw [if_neg hi]
    exact ⟨x, hx, hk x⟩

/-- A table grows when a new element comes in. -/
theorem insert_new (hk : ∀ x, kept x x) {y : α} (h : t.get? (key y) = none) :
    t.Grows kept (t.insert y) :=
  insert hk fun _ hx => absurd (h.symm.trans hx) nofun

/-- A table grows when an element is replaced by one that keeps what it must. -/
theorem insert_kept (hk : ∀ x, kept x x) {x y : α} (hx : x ∈ t) (hid : key y = key x)
    (h : kept x y) : t.Grows kept (t.insert y) := by
  refine insert hk fun z hz => ?_
  rw [hid, Sorted.get?_key hx] at hz
  cases hz
  exact h

/-- What is found under the same ids is the same, up to `kept`. -/
theorem forall₂_filterMap {ids : List NodeId} (h : t.Grows kept t')
    (hids : ∀ i ∈ ids, ∃ x, t.get? i = some x) :
    List.Forall₂ (fun x x' => key x ∈ ids ∧ t.get? (key x) = some x ∧
      t'.get? (key x) = some x' ∧ kept x x') (ids.filterMap t.get?) (ids.filterMap t'.get?) := by
  induction ids with
  | nil => exact .nil
  | cons i ids ih =>
    obtain ⟨x, hx⟩ := hids i List.mem_cons_self
    obtain ⟨x', hx', hk⟩ := h i x hx
    obtain rfl := Sorted.key_of_get? hx
    rw [List.filterMap_cons_some hx, List.filterMap_cons_some hx']
    refine .cons ⟨List.mem_cons_self, hx, hx', hk⟩ ?_
    refine (ih fun i hi => hids i (List.mem_cons_of_mem _ hi)).imp fun y y' hy => ?_
    exact ⟨List.mem_cons_of_mem _ hy.1, hy.2⟩

theorem filterMap_eq {ids : List NodeId} (h : t.Grows Eq t')
    (hids : ∀ i ∈ ids, ∃ x, t.get? i = some x) :
    ids.filterMap t'.get? = ids.filterMap t.get? := by
  apply List.filterMap_congr
  intro i hi
  obtain ⟨x, hx⟩ := hids i hi
  obtain ⟨x', hx', rfl⟩ := h i x hx
  rw [hx, hx']

end Sorted.Grows

namespace Store.Grows

theorem rfl {s : Store} : s.Grows s where
  repositories := .of_eq (fun _ => .rfl) (.refl _)
  branches := .of_eq .refl (.refl _)
  commits := .of_eq (fun _ => .rfl) (.refl _)
  tags := .of_eq .refl (.refl _)
  directories := .of_eq (fun _ => .rfl) (.refl _)
  files := .of_eq (fun _ => .rfl) (.refl _)
  classes := .of_eq (fun _ => .rfl) (.refl _)
  functions := .of_eq .refl (.refl _)
  applications := .of_eq (fun _ => .rfl) (.refl _)
  traces := .of_eq (fun _ => .rfl) (.refl _)
  spans := .of_eq (fun _ => .rfl) (.refl _)

theorem trans {s s' s'' : Store} (h : s.Grows s') (h' : s'.Grows s'') : s.Grows s'' where
  repositories := h.repositories.trans (fun _ _ _ => .trans) h'.repositories
  branches := h.branches.trans (fun _ _ _ => .trans) h'.branches
  commits := h.commits.trans (fun _ _ _ => .trans) h'.commits
  tags := h.tags.trans (fun _ _ _ => .trans) h'.tags
  directories := h.directories.trans (fun _ _ _ => .trans) h'.directories
  files := h.files.trans (fun _ _ _ => .trans) h'.files
  classes := h.classes.trans (fun _ _ _ => .trans) h'.classes
  functions := h.functions.trans (fun _ _ _ => .trans) h'.functions
  applications := h.applications.trans (fun _ _ _ => .trans) h'.applications
  traces := h.traces.trans (fun _ _ _ => .trans) h'.traces
  spans := h.spans.trans (fun _ _ _ => .trans) h'.spans

end Store.Grows

end Cityscape
