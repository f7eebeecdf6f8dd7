import Cityscape.Proofs.Editing

/-!
# `Edges`: what adding an edge does

Each relation goes from nodes of one kind to nodes of another one, and each node lists the edges
that start at it. An edge that may be there (`Store.Linkable`) is added: its target comes into one
list, and a directory or file that is put into a directory gets it as its parent
(`Store.mergeEdge_of_linkable`). Any other edge is refused, and the store stays as it was
(`Store.mergeEdge_of_not_linkable`).
-/

namespace Cityscape

/-! ## Nodes, edges and parents -/

namespace Relation

/-- The kind of the nodes that edges start at. -/
def source : Relation → NodeKind
  | repositoryCommit | repositoryBranch => .repository
  | commitParent | commitFile | commitTag => .commit
  | directorySubdirectory | directoryFile => .directory
  | fileClass | fileFunction => .fileRevision
  | classFunction | classInnerClass | classSuperClass => .classNode
  | traceSpan => .trace

/-- The kind of the nodes that edges go to. -/
def target : Relation → NodeKind
  | repositoryCommit | commitParent => .commit
  | repositoryBranch => .branch
  | commitFile | directoryFile => .fileRevision
  | commitTag => .tag
  | directorySubdirectory => .directory
  | fileClass | classInnerClass | classSuperClass => .classNode
  | fileFunction | classFunction => .function
  | traceSpan => .span

/-- Whether the target lies in the source, of which it then knows. -/
def Contains (r : Relation) : Prop := r = directorySubdirectory ∨ r = directoryFile

instance (r : Relation) : Decidable r.Contains := inferInstanceAs (Decidable (_ ∨ _))

end Relation

/-- The edges that are listed at the element with the given id. -/
def Sorted.edgesAt {α : Type} {key : α → NodeId} (t : Sorted key) (edges : α → SortedSet NodeId)
    (id : NodeId) : SortedSet NodeId :=
  ((t.get? id).map edges).getD ∅

namespace Store

/-- There is a node of the given kind and id. -/
def Has (s : Store) (kind : NodeKind) (id : NodeId) : Prop :=
  match kind with
  | .repository => (s.repositories.get? id).isSome
  | .branch => (s.branches.get? id).isSome
  | .commit => (s.commits.get? id).isSome
  | .tag => (s.tags.get? id).isSome
  | .directory => (s.directories.get? id).isSome
  | .fileRevision => (s.files.get? id).isSome
  | .classNode => (s.classes.get? id).isSome
  | .function => (s.functions.get? id).isSome
  | .trace => (s.traces.get? id).isSome
  | .span => (s.spans.get? id).isSome

/-- The targets of the edges of a relation that start at the given id. -/
def edgesFrom (s : Store) (relation : Relation) (id : NodeId) : SortedSet NodeId :=
  match relation with
  | .repositoryCommit => s.repositories.edgesAt Repository.commits id
  | .repositoryBranch => s.repositories.edgesAt Repository.branches id
  | .commitParent => s.commits.edgesAt Commit.parents id
  | .commitFile => s.commits.edgesAt Commit.fileRevisions id
  | .commitTag => s.commits.edgesAt Commit.tags id
  | .directorySubdirectory => s.directories.edgesAt Directory.subdirectories id
  | .directoryFile => s.directories.edgesAt Directory.fileRevisions id
  | .fileClass => s.files.edgesAt FileRevision.classes id
  | .fileFunction => s.files.edgesAt FileRevision.functions id
  | .classFunction => s.classes.edgesAt ClassNode.functions id
  | .classInnerClass => s.classes.edgesAt ClassNode.innerClasses id
  | .classSuperClass => s.classes.edgesAt ClassNode.superClasses id
  | .traceSpan => s.traces.edgesAt Trace.spans id

/-- There is an edge of the given relation. -/
def HasEdge (s : Store) (relation : Relation) (source target : NodeId) : Prop :=
  target ∈ s.edgesFrom relation source

/-- The directory that a node knows it lies in. -/
def parentOf (s : Store) (kind : NodeKind) (id : NodeId) : Option NodeId :=
  match kind with
  | .directory => (s.directories.get? id).bind Directory.parent
  | .fileRevision => (s.files.get? id).bind FileRevision.parent
  | _ => none

end Store

/-! ## Tables -/

section Tables

variable {α : Type} {key : α → NodeId} {t t' : Sorted key} {edges : α → SortedSet NodeId}
  {withEdges : α → SortedSet NodeId → α} {kind : NodeKind} {source target id k : NodeId}
  {f : α → α}

namespace Sorted

theorem get?_modify (hf : ∀ x, key (f x) = key x) :
    (t.modify k f).get? id = if id = k then (t.get? k).map f else t.get? id := by
  unfold modify
  cases hget : t.get? k with
  | none =>
    by_cases h : id = k
    · rw [if_pos h, h]
      exact hget
    · rw [if_neg h]
  | some x =>
    have hx : key (f x) = k := (hf x).trans (key_of_get? hget)
    simp only [get?_insert, hx, Option.map_some]

theorem modify_eq_self (h : ∀ x, t.get? k = some x → f x = x) : t.modify k f = t := by
  unfold modify
  cases hget : t.get? k with
  | none => rfl
  | some x =>
    show t.insert (f x) = t
    rw [h x hget]
    exact insert_eq_self (mem_of_get? hget)

theorem isSome_modify (hf : ∀ x, key (f x) = key x) :
    ((t.modify k f).get? id).isSome = (t.get? id).isSome := by
  rw [get?_modify hf]
  by_cases h : id = k
  · rw [if_pos h, h, Option.isSome_map]
  · rw [if_neg h]

theorem edgesAt_of_get? {x : α} (h : t.get? id = some x) : t.edgesAt edges id = edges x := by
  unfold edgesAt
  rw [h]
  rfl

theorem mem_edgesAt_of_get? {x : α} (hx : t.get? id = some x) (h : target ∈ edges x) :
    target ∈ t.edgesAt edges id := (edgesAt_of_get? hx).symm ▸ h

theorem mem_edgesAt {x : α} (hx : x ∈ t) (h : target ∈ edges x) :
    target ∈ t.edgesAt edges (key x) := mem_edgesAt_of_get? (get?_key hx) h

theorem isSome_get? {x : α} (hx : x ∈ t) : (t.get? (key x)).isSome :=
  Option.isSome_iff_exists.2 ⟨x, get?_key hx⟩

theorem exists_of_mem_edgesAt (h : target ∈ t.edgesAt edges id) :
    ∃ x, t.get? id = some x ∧ target ∈ edges x := by
  unfold edgesAt at h
  cases hget : t.get? id with
  | none =>
    rw [hget] at h
    exact absurd h (not_mem_empty target)
  | some x =>
    rw [hget] at h
    exact ⟨x, rfl, h⟩

theorem modify_of_mem_edgesAt (h : target ∈ t.edgesAt edges k)
    (hf : ∀ x, target ∈ edges x → f x = x) : t.modify k f = t := by
  obtain ⟨y, hy, hmem⟩ := exists_of_mem_edgesAt h
  refine modify_eq_self fun x hx => hf x ?_
  obtain rfl := Option.some.inj (hy.symm.trans hx)
  exact hmem

/-- A change that is not about the edges leaves them. -/
theorem edgesAt_modify (hf : ∀ x, key (f x) = key x) (he : ∀ x, edges (f x) = edges x) :
    (t.modify k f).edgesAt edges id = t.edgesAt edges id := by
  unfold edgesAt
  rw [get?_modify hf]
  by_cases h : id = k
  · rw [if_pos h, h, Option.map_map, show edges ∘ f = edges from funext he]
  · rw [if_neg h]

/-- A change at one element leaves the edges of the others. -/
theorem edgesAt_modify_of_ne (hf : ∀ x, key (f x) = key x) (h : id ≠ k) :
    (t.modify k f).edgesAt edges id = t.edgesAt edges id := by
  unfold edgesAt
  rw [get?_modify hf, if_neg h]

theorem edgesAt_modify_insert (hf : ∀ x, key (f x) = key x)
    (he : ∀ x, edges (f x) = (edges x).insert target) (hk : (t.get? k).isSome) :
    (t.modify k f).edgesAt edges k = (t.edgesAt edges k).insert target := by
  obtain ⟨x, hx⟩ := Option.isSome_iff_exists.1 hk
  have hx' : (t.modify k f).get? k = some (f x) := by rw [get?_modify hf, if_pos rfl, hx]; rfl
  rw [edgesAt_of_get? hx', edgesAt_of_get? hx, he]

section Bind

variable {β : Type} {g : α → Option β}

theorem bind_modify (hf : ∀ x, key (f x) = key x) (hg : ∀ x, g (f x) = g x) :
    ((t.modify k f).get? id).bind g = (t.get? id).bind g := by
  rw [get?_modify hf]
  by_cases h : id = k
  · rw [if_pos h, h]
    cases t.get? k with
    | none => rfl
    | some x => exact hg x
  · rw [if_neg h]

theorem bind_modify_of_ne (hf : ∀ x, key (f x) = key x) (h : id ≠ k) :
    ((t.modify k f).get? id).bind g = (t.get? id).bind g := by
  rw [get?_modify hf, if_neg h]

theorem bind_modify_self {y : β} (hf : ∀ x, key (f x) = key x) (hg : ∀ x, g (f x) = some y)
    (hk : (t.get? k).isSome) : ((t.modify k f).get? k).bind g = some y := by
  obtain ⟨x, hx⟩ := Option.isSome_iff_exists.1 hk
  rw [get?_modify hf, if_pos rfl, hx]
  exact hg x

end Bind

end Sorted

end Tables

/-! ## One edge -/

namespace Store

/-- The store with one more edge. The target of the two relations of the file tree gets the source
as its parent. -/
def withEdge (s : Store) (relation : Relation) (a b : NodeId) : Store :=
  match relation with
  | .repositoryCommit => { s with
      repositories := s.repositories.modify a fun r => { r with commits := r.commits.insert b } }
  | .repositoryBranch => { s with
      repositories := s.repositories.modify a fun r => { r with branches := r.branches.insert b } }
  | .commitParent => { s with
      commits := s.commits.modify a fun c => { c with parents := c.parents.insert b } }
  | .commitFile => { s with
      commits := s.commits.modify a fun c =>
        { c with fileRevisions := c.fileRevisions.insert b } }
  | .commitTag => { s with
      commits := s.commits.modify a fun c => { c with tags := c.tags.insert b } }
  | .directorySubdirectory => { s with
      directories := (s.directories.modify a fun d =>
        { d with subdirectories := d.subdirectories.insert b }).modify b fun d =>
          { d with parent := some a } }
  | .directoryFile => { s with
      directories := s.directories.modify a fun d =>
        { d with fileRevisions := d.fileRevisions.insert b }
      files := s.files.modify b fun f => { f with parent := some a } }
  | .fileClass => { s with
      files := s.files.modify a fun f => { f with classes := f.classes.insert b } }
  | .fileFunction => { s with
      files := s.files.modify a fun f => { f with functions := f.functions.insert b } }
  | .classFunction => { s with
      classes := s.classes.modify a fun c => { c with functions := c.functions.insert b } }
  | .classInnerClass => { s with
      classes := s.classes.modify a fun c => { c with innerClasses := c.innerClasses.insert b } }
  | .classSuperClass => { s with
      classes := s.classes.modify a fun c => { c with superClasses := c.superClasses.insert b } }
  | .traceSpan => { s with
      traces := s.traces.modify a fun t => { t with spans := t.spans.insert b } }

variable {s s' : Store} {relation : Relation} {a b id : NodeId}

theorem contains_edgesFrom :
    (!(s.edgesFrom relation a).contains b) = true ↔ ¬s.HasEdge relation a b := by
  rw [Bool.not_eq_true', ← Bool.not_eq_true]
  exact not_congr SortedSet.contains_iff

theorem HasEdge.source (h : s.HasEdge relation a b) : s.Has relation.source a := by
  cases relation <;>
  · obtain ⟨x, hx, -⟩ := Sorted.exists_of_mem_edgesAt h
    exact Option.isSome_iff_exists.2 ⟨x, hx⟩

/-- What must hold for an edge to be found or added. -/
structure Linkable (s : Store) (relation : Relation) (a b : NodeId) : Prop where
  source : s.Has relation.source a
  target : s.Has relation.target b
  /-- Nothing lies in two directories. -/
  parent : relation.Contains →
    s.parentOf relation.target b = none ∨ s.parentOf relation.target b = some a
  /-- No directory lies in itself. -/
  proper : relation = .directorySubdirectory → a ≠ b

/-! ### What asking for an edge comes to -/

section Tables

variable {α β : Type} {key : α → NodeId} {key' : β → NodeId} {t : NodeTable key}
  {t' : NodeTable key'} {x : α} {edges : α → SortedSet NodeId}
  {withEdges : α → SortedSet NodeId → α} {contents : Directory → SortedSet NodeId}
  {withContents : Directory → SortedSet NodeId → Directory} {parent : α → Option NodeId}
  {withParent : α → NodeId → α}

/-- An edge at a node that is there is listed afterwards. -/
theorem link_of_isSome (ha : ((t.get s).get? a).isSome) (hself : ∀ x, withEdges x (edges x) = x) :
    Edit.link t a b edges withEdges s
      = { result := .ok (!((t.get s).edgesAt edges a).contains b)
          store := t.put s ((t.get s).modify a fun x => withEdges x ((edges x).insert b)) } := by
  obtain ⟨x, hx⟩ := Option.isSome_iff_exists.1 ha
  rw [Edit.link_of_get? hx (hself x), Sorted.edgesAt_of_get? hx, Sorted.modify_of_get? hx]

/-- An edge between nodes that are there is listed at the first one. -/
theorem require_link_of_isSome (hb : ((t'.get s).get? b).isSome) (ha : ((t.get s).get? a).isSome)
    (hself : ∀ x, withEdges x (edges x) = x) :
    (do let _ ← Edit.require t' b
        Edit.link t a b edges withEdges : Edit Bool) s
      = { result := .ok (!((t.get s).edgesAt edges a).contains b)
          store := t.put s ((t.get s).modify a fun x => withEdges x ((edges x).insert b)) } := by
  obtain ⟨y, hy⟩ := Option.isSome_iff_exists.1 hb
  exact (Edit.bind_of_value (Edit.require_of_get? hy)).trans (link_of_isSome ha hself)

theorem require_link_refused
    (h : ¬(((t'.get s).get? b).isSome ∧ ((t.get s).get? a).isSome)) :
    ∃ e, (do let _ ← Edit.require t' b
             Edit.link t a b edges withEdges : Edit Bool) s
      = { result := .error (.edge e), store := s } := by
  cases hb : (t'.get s).get? b with
  | none => exact ⟨_, Edit.bind_of_error (Edit.require_of_none hb)⟩
  | some y =>
    have ha : (t.get s).get? a = none := by
      rw [hb] at h
      simpa using h
    exact ⟨_, (Edit.bind_of_value (Edit.require_of_get? hb)).trans (Edit.link_of_none ha)⟩

theorem requireParent_of_free {kind : NodeKind} {p : Option NodeId}
    (h : p = none ∨ p = some a) :
    Edit.requireParent kind b p a s = { result := .ok (), store := s } := by
  rcases h with rfl | rfl
  · rfl
  · unfold Edit.requireParent
    simp only [if_true]
    rfl

theorem requireParent_of_taken (kind : NodeKind) {p : Option NodeId}
    (h : ¬(p = none ∨ p = some a)) : ∃ e,
    Edit.requireParent kind b p a s = { result := .error (.edge e), store := s } := by
  cases p with
  | none => exact absurd (.inl rfl) h
  | some q =>
    have hne : q ≠ a := fun he => h (.inr (congrArg some he))
    refine ⟨.contained kind b q, ?_⟩
    unfold Edit.requireParent
    simp only [hne, if_false]
    rfl

/-- A node that lies in no other directory is listed in this one and knows of it. -/
theorem contain_of_free (parent : α → Option NodeId) (withParent : α → NodeId → α)
    (contents : Directory → SortedSet NodeId)
    (withContents : Directory → SortedSet NodeId → Directory)
    (hx : (t.get s).get? b = some x) (hp : parent x = none ∨ parent x = some a)
    (ha : (s.directories.get? a).isSome) (hself : ∀ d, withContents d (contents d) = d) :
    Edit.contain t a b parent withParent contents withContents s
      = let s' : Store := { s with
          directories := s.directories.modify a fun d => withContents d ((contents d).insert b) }
        { result := .ok (!(s.directories.edgesAt contents a).contains b)
          store := t.put s' ((t.get s').modify b fun x => withParent x a) } := by
  unfold Edit.contain
  rw [Edit.bind_of_value (Edit.require_of_get? hx),
    Edit.bind_of_value (requireParent_of_free hp),
    Edit.bind_of_value (link_of_isSome (t := .directories) ha hself)]
  rfl

theorem contain_refused
    (h : ∀ x, (t.get s).get? b = some x → parent x = none ∨ parent x = some a →
      s.directories.get? a = none) :
    ∃ e, Edit.contain t a b parent withParent contents withContents s
      = { result := .error (.edge e), store := s } := by
  unfold Edit.contain
  cases hx : (t.get s).get? b with
  | none => exact ⟨_, Edit.bind_of_error (Edit.require_of_none hx)⟩
  | some x =>
    rw [Edit.bind_of_value (Edit.require_of_get? hx)]
    by_cases hp : parent x = none ∨ parent x = some a
    · have ha := h x hx hp
      rw [Edit.bind_of_value (requireParent_of_free hp)]
      exact ⟨_, Edit.bind_of_error (Edit.link_of_none (t := .directories) ha)⟩
    · obtain ⟨e, he⟩ := requireParent_of_taken (s := s) (b := b) t.kind hp
      exact ⟨e, Edit.bind_of_error he⟩

end Tables

theorem parentOf_directory {d : Directory} (hd : s.directories.get? b = some d) :
    s.parentOf .directory b = d.parent := by
  unfold parentOf
  rw [hd]
  rfl

theorem parentOf_fileRevision {f : FileRevision} (hf : s.files.get? b = some f) :
    s.parentOf .fileRevision b = f.parent := by
  unfold parentOf
  rw [hf]
  rfl

theorem containDirectory_of_free {d : Directory} (hd : s.directories.get? b = some d)
    (hp : d.parent = none ∨ d.parent = some a) (ha : s.Has .directory a) (hab : a ≠ b) :
    Edit.containDirectory a b s
      = { result := .ok (!(s.edgesFrom .directorySubdirectory a).contains b)
          store := s.withEdge .directorySubdirectory a b } := by
  unfold Edit.containDirectory
  rw [if_neg hab]
  exact (contain_of_free (t := .directories) Directory.parent
    (fun d p => { d with parent := some p }) Directory.subdirectories
    (fun d e => { d with subdirectories := e }) hd hp ha fun _ => rfl :)

theorem containDirectory_refused (h : a ≠ b → ∀ d, s.directories.get? b = some d →
    d.parent = none ∨ d.parent = some a → ¬s.Has .directory a) :
    ∃ e, Edit.containDirectory a b s = { result := .error (.edge e), store := s } := by
  unfold Edit.containDirectory
  by_cases hab : a = b
  · rw [if_pos hab]
    exact ⟨_, rfl⟩
  · rw [if_neg hab]
    exact contain_refused fun d hd hp => Option.not_isSome_iff_eq_none.1 (h hab d hd hp)

theorem containFile_of_free {f : FileRevision} (hf : s.files.get? b = some f)
    (hp : f.parent = none ∨ f.parent = some a) (ha : s.Has .directory a) :
    Edit.containFile a b s
      = { result := .ok (!(s.edgesFrom .directoryFile a).contains b)
          store := s.withEdge .directoryFile a b } := by
  unfold Edit.containFile
  exact (contain_of_free (t := .files) FileRevision.parent
    (fun f p => { f with parent := some p }) Directory.fileRevisions
    (fun d e => { d with fileRevisions := e }) hf hp ha fun _ => rfl :)

theorem containFile_refused (h : ∀ f, s.files.get? b = some f →
    f.parent = none ∨ f.parent = some a → ¬s.Has .directory a) :
    ∃ e, Edit.containFile a b s = { result := .error (.edge e), store := s } := by
  unfold Edit.containFile
  exact contain_refused fun f hf hp => Option.not_isSome_iff_eq_none.1 (h f hf hp)

/-- An edge that may be there is there afterwards, and whether it is new is told. -/
theorem mergeEdge_of_linkable (h : s.Linkable relation a b) :
    Edit.mergeEdge relation a b s
      = { result := .ok (!(s.edgesFrom relation a).contains b)
          store := s.withEdge relation a b } := by
  cases relation with
  | directorySubdirectory =>
    obtain ⟨d, hd⟩ := Option.isSome_iff_exists.1 h.target
    have hp : s.parentOf .directory b = none ∨ s.parentOf .directory b = some a :=
      h.parent (.inl rfl)
    rw [parentOf_directory hd] at hp
    exact containDirectory_of_free hd hp h.source (h.proper rfl)
  | directoryFile =>
    obtain ⟨f, hf⟩ := Option.isSome_iff_exists.1 h.target
    have hp : s.parentOf .fileRevision b = none ∨ s.parentOf .fileRevision b = some a :=
      h.parent (.inr rfl)
    rw [parentOf_fileRevision hf] at hp
    exact containFile_of_free hf hp h.source
  | _ =>
    refine require_link_of_isSome ?_ ?_ fun _ => rfl
    · exact h.target
    · exact h.source

/-- Any other edge is refused, and the store stays as it was. -/
theorem mergeEdge_of_not_linkable (h : ¬s.Linkable relation a b) :
    ∃ e, Edit.mergeEdge relation a b s = { result := .error (.edge e), store := s } := by
  cases relation with
  | directorySubdirectory =>
    refine containDirectory_refused fun hab d hd hp ha => h ?_
    refine ⟨ha, Option.isSome_iff_exists.2 ⟨d, hd⟩, fun _ => ?_, fun _ => hab⟩
    exact (parentOf_directory hd).symm ▸ hp
  | directoryFile =>
    refine containFile_refused fun f hf hp ha => h ?_
    refine ⟨ha, Option.isSome_iff_exists.2 ⟨f, hf⟩, fun _ => ?_, nofun⟩
    exact (parentOf_fileRevision hf).symm ▸ hp
  | _ =>
    refine require_link_refused ?_
    rintro ⟨hb, ha⟩
    exact h ⟨ha, hb, fun hc => absurd hc (by decide), nofun⟩

/-- Adding an edge that is there changes nothing. -/
theorem withEdge_of_hasEdge (h : s.HasEdge relation a b)
    (hparent : relation.Contains → s.parentOf relation.target b = some a) :
    s.withEdge relation a b = s := by
  cases relation with
  | directorySubdirectory =>
    have hlisted : s.directories.modify a
        (fun d => { d with subdirectories := d.subdirectories.insert b }) = s.directories :=
      Sorted.modify_of_mem_edgesAt h fun d hd => by rw [SortedSet.insert_eq_self hd]
    have htold : s.directories.modify b (fun d => { d with parent := some a })
        = s.directories := by
      refine Sorted.modify_eq_self fun x hx => ?_
      rw [← (parentOf_directory hx).symm.trans (hparent (.inl rfl))]
    show { s with directories := (s.directories.modify a _).modify b _ } = s
    rw [hlisted, htold]
  | directoryFile =>
    have hlisted : s.directories.modify a
        (fun d => { d with fileRevisions := d.fileRevisions.insert b }) = s.directories :=
      Sorted.modify_of_mem_edgesAt h fun d hd => by rw [SortedSet.insert_eq_self hd]
    have htold : s.files.modify b (fun f => { f with parent := some a }) = s.files := by
      refine Sorted.modify_eq_self fun x hx => ?_
      rw [← (parentOf_fileRevision hx).symm.trans (hparent (.inr rfl))]
    show { s with directories := s.directories.modify a _, files := s.files.modify b _ } = s
    rw [hlisted, htold]
  | _ =>
    simp only [withEdge]
    rw [Sorted.modify_of_mem_edgesAt h fun x hx => by rw [SortedSet.insert_eq_self hx]]

/-- An edge that is there is found, and the store stays as it was. -/
theorem mergeEdge_of_hasEdge (h : s.HasEdge relation a b) (htarget : s.Has relation.target b)
    (hparent : relation.Contains → s.parentOf relation.target b = some a)
    (hproper : relation = .directorySubdirectory → a ≠ b) :
    Edit.mergeEdge relation a b s = { result := .ok false, store := s } := by
  have hlink : s.Linkable relation a b :=
    ⟨h.source, htarget, fun hc => .inr (hparent hc), hproper⟩
  rw [mergeEdge_of_linkable hlink, withEdge_of_hasEdge h hparent, SortedSet.contains_iff.2 h]
  rfl

theorem has_withEdge (kind : NodeKind) :
    (s.withEdge relation a b).Has kind id ↔ s.Has kind id := by
  cases relation <;> cases kind <;> first
    | rfl
    | exact Bool.eq_iff_iff.1 (Sorted.isSome_modify fun _ => rfl)
    | refine Bool.eq_iff_iff.1 ((Sorted.isSome_modify ?_).trans (Sorted.isSome_modify ?_)) <;>
        exact fun _ => rfl

theorem edgesFrom_withEdge (h : s.Has relation.source a) :
    (s.withEdge relation a b).edgesFrom relation a = (s.edgesFrom relation a).insert b := by
  cases relation with
  | directorySubdirectory =>
    refine (Sorted.edgesAt_modify ?_ ?_).trans (Sorted.edgesAt_modify_insert ?_ ?_ h) <;>
    exact fun _ => rfl
  | _ => exact Sorted.edgesAt_modify_insert (fun _ => rfl) (fun _ => rfl) h

theorem edgesFrom_withEdge_of_ne {other : Relation} (h : (other, id) ≠ (relation, a)) :
    (s.withEdge relation a b).edgesFrom other id = s.edgesFrom other id := by
  by_cases hrel : other = relation
  · have hid : id ≠ a := fun he => h (Prod.ext hrel he)
    subst hrel
    cases other with
    | directorySubdirectory =>
      refine (Sorted.edgesAt_modify ?_ ?_).trans (Sorted.edgesAt_modify_of_ne ?_ hid) <;>
      exact fun _ => rfl
    | _ => exact Sorted.edgesAt_modify_of_ne (fun _ => rfl) hid
  · cases relation <;> cases other <;> first
      | rfl
      | exact absurd rfl hrel
      | exact Sorted.edgesAt_modify (fun _ => rfl) fun _ => rfl
      | refine (Sorted.edgesAt_modify ?_ ?_).trans (Sorted.edgesAt_modify ?_ ?_) <;>
          exact fun _ => rfl

/-- An edge is added, and no other one comes or goes. -/
theorem hasEdge_withEdge (h : s.Has relation.source a) {other : Relation} {x y : NodeId} :
    (s.withEdge relation a b).HasEdge other x y ↔
      s.HasEdge other x y ∨ (other = relation ∧ x = a ∧ y = b) := by
  unfold HasEdge
  by_cases hsame : (other, x) = (relation, a)
  · obtain ⟨rfl, rfl⟩ := Prod.mk.inj hsame
    rw [edgesFrom_withEdge h, SortedSet.mem_insert, or_comm]
    simp
  · rw [edgesFrom_withEdge_of_ne hsame]
    refine ⟨.inl, ?_⟩
    rintro (h | ⟨rfl, rfl, -⟩)
    · exact h
    · exact absurd rfl hsame

/-- The target of an edge of the file tree gets its source as parent. -/
theorem parentOf_withEdge (hc : relation.Contains) (h : s.Has relation.target b) :
    (s.withEdge relation a b).parentOf relation.target b = some a := by
  rcases hc with rfl | rfl
  · refine Sorted.bind_modify_self ?_ ?_ ((Sorted.isSome_modify ?_).trans h) <;>
    exact fun _ => rfl
  · exact Sorted.bind_modify_self (fun _ => rfl) (fun _ => rfl) h

/-- All other nodes keep their parents. -/
theorem parentOf_withEdge_of_ne {kind : NodeKind}
    (h : relation.Contains → (kind, id) ≠ (relation.target, b)) :
    (s.withEdge relation a b).parentOf kind id = s.parentOf kind id := by
  cases relation with
  | directorySubdirectory =>
    cases kind with
    | directory =>
      have hid : id ≠ b := fun he => h (.inl rfl) (he ▸ rfl)
      refine (Sorted.bind_modify_of_ne ?_ hid).trans (Sorted.bind_modify ?_ ?_) <;>
      exact fun _ => rfl
    | _ => rfl
  | directoryFile =>
    cases kind with
    | directory => exact Sorted.bind_modify (fun _ => rfl) fun _ => rfl
    | fileRevision =>
      have hid : id ≠ b := fun he => h (.inr rfl) (he ▸ rfl)
      exact Sorted.bind_modify_of_ne (fun _ => rfl) hid
    | _ => rfl
  | fileClass | fileFunction =>
    cases kind with
    | fileRevision => exact Sorted.bind_modify (fun _ => rfl) fun _ => rfl
    | _ => rfl
  | _ => rfl

end Store

end Cityscape
