import Cityscape.Proofs.Edges

/-!
# `Wiring`: what keeps the edges together

A node that comes in brings no edges, and a copy of a stored node brings none that the store does
not have. So merging and saving nodes leaves all edges and parents as they are (`Store.Brings`).
Adding an edge changes them, but takes nothing away (`Linkable.retains`). Either way edges end at
nodes, and a node knows the directory it lies in (`Store.Wired`).
-/

namespace Cityscape

/-! ## Tables -/

section Tables

variable {α β : Type} {key : α → NodeId} {t : Sorted key} {edges : α → SortedSet NodeId}
  {g : α → Option β} {k : NodeId} {x old : α} {e : SortedSet NodeId} {o : Option β}

namespace Sorted

theorem edgesAt_insert_of_eq (h : edges x = t.edgesAt edges (key x)) :
    (t.insert x).edgesAt edges k = t.edgesAt edges k := by
  by_cases hk : k = key x
  · rw [hk, edgesAt_of_get? (get?_insert_self t x), h]
  · unfold edgesAt
    rw [get?_insert_of_ne hk]

theorem bind_insert_of_eq (h : g x = (t.get? (key x)).bind g) :
    ((t.insert x).get? k).bind g = (t.get? k).bind g := by
  by_cases hk : k = key x
  · rw [hk, get?_insert_self, ← h]
    rfl
  · rw [get?_insert_of_ne hk]

theorem forall_mem_of_empty (h : e = ∅) {P : NodeId → Prop} : ∀ b ∈ e, P b := by
  subst h
  exact fun b hb => absurd hb (not_mem_empty b)

theorem isSome_insert :
    ((t.insert x).get? k).isSome ↔ (t.get? k).isSome ∨ some (key x) = some k := by
  rw [get?_insert, Option.some_inj]
  by_cases hk : k = key x
  · simp [hk]
  · simp [hk, Ne.symm hk]

/-- Where no element is, no edges are listed. -/
theorem eq_edgesAt_of_none (h : t.get? k = none) (he : ∀ b ∈ e, b ∈ t.edgesAt edges k) :
    e = t.edgesAt edges k := by
  have hnone : t.edgesAt edges k = ∅ := by
    unfold edgesAt
    rw [h]
    rfl
  rw [hnone] at he ⊢
  exact SortedSet.ext_mem fun a => ⟨he a, fun ha => absurd ha (not_mem_empty a)⟩

/-- Edges that are listed add nothing to those that are listed. -/
theorem union_eq_edgesAt (h : t.get? k = some old) (he : ∀ b ∈ e, b ∈ t.edgesAt edges k) :
    e.union (edges old) = t.edgesAt edges k := by
  rw [edgesAt_of_get? h] at he ⊢
  refine SortedSet.ext_mem fun a => ?_
  rw [SortedSet.mem_union]
  exact ⟨fun ha => ha.elim (he a) id, .inr⟩

theorem eq_bind_of_none (h : t.get? k = none)
    (ho : ∀ p, o = some p → (t.get? k).bind g = some p) : o = (t.get? k).bind g := by
  rw [h] at ho ⊢
  exact Option.eq_none_iff_forall_ne_some.2 fun p hp => nomatch ho p hp

theorem or_eq_bind (h : t.get? k = some old)
    (ho : ∀ p, o = some p → (t.get? k).bind g = some p) : o.or (g old) = (t.get? k).bind g := by
  rw [h] at ho ⊢
  cases o with
  | none => rfl
  | some p => exact (ho p rfl).symm

end Sorted

end Tables

/-- Of what a node contains there is one relation for each kind. -/
theorem Relation.eq_of_target {r r' : Relation} (h : r.Contains) (h' : r'.Contains)
    (ht : r.target = r'.target) : r = r' := by
  rcases h with rfl | rfl <;> rcases h' with rfl | rfl <;> first | rfl | cases ht

namespace Store

variable {s s' : Store}

/-! ## Nodes that come in and copies of nodes -/

/-- No edge and no parent is changed, and at most one node comes in. -/
structure Brings (s s' : Store) (node : Option NodeId) : Prop where
  edges : ∀ relation a, s'.edgesFrom relation a = s.edgesFrom relation a
  parents : ∀ kind k, s'.parentOf kind k = s.parentOf kind k
  has : ∀ kind k, s.Has kind k → s'.Has kind k
  only : ∀ kind k, s'.Has kind k → s.Has kind k ∨ node = some k

theorem Brings.refl (s : Store) (node : Option NodeId) : s.Brings s node :=
  ⟨fun _ _ => rfl, fun _ _ => rfl, fun _ _ h => h, fun _ _ h => .inl h⟩

section Tables

theorem brings_repositories {r : Repository}
    (hc : r.commits = s.edgesFrom .repositoryCommit r.id)
    (hb : r.branches = s.edgesFrom .repositoryBranch r.id) :
    s.Brings { s with repositories := s.repositories.insert r } (some r.id) where
  edges relation a := by
    cases relation with
    | repositoryCommit => exact Sorted.edgesAt_insert_of_eq hc
    | repositoryBranch => exact Sorted.edgesAt_insert_of_eq hb
    | _ => rfl
  parents kind k := by cases kind <;> rfl
  has kind k h := by
    cases kind with
    | repository => exact Sorted.isSome_insert.2 (.inl h)
    | _ => exact h
  only kind k h := by
    cases kind with
    | repository => exact Sorted.isSome_insert.1 h
    | _ => exact .inl h

theorem brings_branches (b : Branch) :
    s.Brings { s with branches := s.branches.insert b } (some b.id) where
  edges relation a := by cases relation <;> rfl
  parents kind k := by cases kind <;> rfl
  has kind k h := by
    cases kind with
    | branch => exact Sorted.isSome_insert.2 (.inl h)
    | _ => exact h
  only kind k h := by
    cases kind with
    | branch => exact Sorted.isSome_insert.1 h
    | _ => exact .inl h

theorem brings_commits {c : Commit} (hp : c.parents = s.edgesFrom .commitParent c.id)
    (hf : c.fileRevisions = s.edgesFrom .commitFile c.id)
    (ht : c.tags = s.edgesFrom .commitTag c.id) :
    s.Brings { s with commits := s.commits.insert c } (some c.id) where
  edges relation a := by
    cases relation with
    | commitParent => exact Sorted.edgesAt_insert_of_eq hp
    | commitFile => exact Sorted.edgesAt_insert_of_eq hf
    | commitTag => exact Sorted.edgesAt_insert_of_eq ht
    | _ => rfl
  parents kind k := by cases kind <;> rfl
  has kind k h := by
    cases kind with
    | commit => exact Sorted.isSome_insert.2 (.inl h)
    | _ => exact h
  only kind k h := by
    cases kind with
    | commit => exact Sorted.isSome_insert.1 h
    | _ => exact .inl h

theorem brings_tags (t : Tag) : s.Brings { s with tags := s.tags.insert t } (some t.id) where
  edges relation a := by cases relation <;> rfl
  parents kind k := by cases kind <;> rfl
  has kind k h := by
    cases kind with
    | tag => exact Sorted.isSome_insert.2 (.inl h)
    | _ => exact h
  only kind k h := by
    cases kind with
    | tag => exact Sorted.isSome_insert.1 h
    | _ => exact .inl h

theorem brings_directories {d : Directory}
    (hs : d.subdirectories = s.edgesFrom .directorySubdirectory d.id)
    (hf : d.fileRevisions = s.edgesFrom .directoryFile d.id)
    (hp : d.parent = s.parentOf .directory d.id) :
    s.Brings { s with directories := s.directories.insert d } (some d.id) where
  edges relation a := by
    cases relation with
    | directorySubdirectory => exact Sorted.edgesAt_insert_of_eq hs
    | directoryFile => exact Sorted.edgesAt_insert_of_eq hf
    | _ => rfl
  parents kind k := by
    cases kind with
    | directory => exact Sorted.bind_insert_of_eq hp
    | _ => rfl
  has kind k h := by
    cases kind with
    | directory => exact Sorted.isSome_insert.2 (.inl h)
    | _ => exact h
  only kind k h := by
    cases kind with
    | directory => exact Sorted.isSome_insert.1 h
    | _ => exact .inl h

theorem brings_files {f : FileRevision} (hc : f.classes = s.edgesFrom .fileClass f.id)
    (hf : f.functions = s.edgesFrom .fileFunction f.id)
    (hp : f.parent = s.parentOf .fileRevision f.id) :
    s.Brings { s with files := s.files.insert f } (some f.id) where
  edges relation a := by
    cases relation with
    | fileClass => exact Sorted.edgesAt_insert_of_eq hc
    | fileFunction => exact Sorted.edgesAt_insert_of_eq hf
    | _ => rfl
  parents kind k := by
    cases kind with
    | fileRevision => exact Sorted.bind_insert_of_eq hp
    | _ => rfl
  has kind k h := by
    cases kind with
    | fileRevision => exact Sorted.isSome_insert.2 (.inl h)
    | _ => exact h
  only kind k h := by
    cases kind with
    | fileRevision => exact Sorted.isSome_insert.1 h
    | _ => exact .inl h

theorem brings_classes {c : ClassNode} (hf : c.functions = s.edgesFrom .classFunction c.id)
    (hi : c.innerClasses = s.edgesFrom .classInnerClass c.id)
    (hu : c.superClasses = s.edgesFrom .classSuperClass c.id) :
    s.Brings { s with classes := s.classes.insert c } (some c.id) where
  edges relation a := by
    cases relation with
    | classFunction => exact Sorted.edgesAt_insert_of_eq hf
    | classInnerClass => exact Sorted.edgesAt_insert_of_eq hi
    | classSuperClass => exact Sorted.edgesAt_insert_of_eq hu
    | _ => rfl
  parents kind k := by cases kind <;> rfl
  has kind k h := by
    cases kind with
    | classNode => exact Sorted.isSome_insert.2 (.inl h)
    | _ => exact h
  only kind k h := by
    cases kind with
    | classNode => exact Sorted.isSome_insert.1 h
    | _ => exact .inl h

theorem brings_saveFunction (f : FunctionNode) : s.Brings (s.saveFunction f) (some f.id) where
  edges relation a := by cases relation <;> rfl
  parents kind k := by cases kind <;> rfl
  has kind k h := by
    cases kind with
    | function => exact Sorted.isSome_insert.2 (.inl h)
    | _ => exact h
  only kind k h := by
    cases kind with
    | function => exact Sorted.isSome_insert.1 h
    | _ => exact .inl h

theorem brings_saveApplication (a : Application) : s.Brings (s.saveApplication a) (some a.id) where
  edges relation a := by cases relation <;> rfl
  parents kind k := by cases kind <;> rfl
  has kind k h := by cases kind <;> exact h
  only kind k h := by cases kind <;> exact .inl h

theorem brings_traces {t : Trace} (hs : t.spans = s.edgesFrom .traceSpan t.id) :
    s.Brings { s with traces := s.traces.insert t } (some t.id) where
  edges relation a := by
    cases relation with
    | traceSpan => exact Sorted.edgesAt_insert_of_eq hs
    | _ => rfl
  parents kind k := by cases kind <;> rfl
  has kind k h := by
    cases kind with
    | trace => exact Sorted.isSome_insert.2 (.inl h)
    | _ => exact h
  only kind k h := by
    cases kind with
    | trace => exact Sorted.isSome_insert.1 h
    | _ => exact .inl h

theorem brings_saveSpan (p : Span) : s.Brings (s.saveSpan p) (some p.id) where
  edges relation a := by cases relation <;> rfl
  parents kind k := by cases kind <;> rfl
  has kind k h := by
    cases kind with
    | span => exact Sorted.isSome_insert.2 (.inl h)
    | _ => exact h
  only kind k h := by
    cases kind with
    | span => exact Sorted.isSome_insert.1 h
    | _ => exact .inl h

/-- Handing out an id brings no node. -/
theorem brings_allocate : s.Brings s.allocate.2 none where
  edges relation a := by cases relation <;> rfl
  parents kind k := by cases kind <;> rfl
  has kind k h := by cases kind <;> exact h
  only kind k h := by cases kind <;> exact .inl h

end Tables

section Merges

theorem brings_mergeRepository {r : Repository} (h : ¬s.Has .repository r.id)
    (hc : r.commits = ∅) (hb : r.branches = ∅) : s.Brings (s.mergeRepository r).2 (some r.id) := by
  have hnone : s.repositories.get? r.id = none := Option.not_isSome_iff_eq_none.1 h
  unfold mergeRepository
  split
  · exact .refl s (some r.id)
  · exact brings_repositories
      (Sorted.eq_edgesAt_of_none hnone (Sorted.forall_mem_of_empty hc))
      (Sorted.eq_edgesAt_of_none hnone (Sorted.forall_mem_of_empty hb))

theorem brings_mergeBranch (b : Branch) : s.Brings (s.mergeBranch b).2 (some b.id) := by
  unfold mergeBranch
  split
  · exact .refl s (some b.id)
  · exact brings_branches b

theorem brings_mergeCommit {c : Commit} (h : ¬s.Has .commit c.id) (hp : c.parents = ∅)
    (hf : c.fileRevisions = ∅) (ht : c.tags = ∅) : s.Brings (s.mergeCommit c).2 (some c.id) := by
  have hnone : s.commits.get? c.id = none := Option.not_isSome_iff_eq_none.1 h
  unfold mergeCommit
  split
  · exact .refl s (some c.id)
  · exact brings_commits
      (Sorted.eq_edgesAt_of_none hnone (Sorted.forall_mem_of_empty hp))
      (Sorted.eq_edgesAt_of_none hnone (Sorted.forall_mem_of_empty hf))
      (Sorted.eq_edgesAt_of_none hnone (Sorted.forall_mem_of_empty ht))

theorem brings_mergeTag (t : Tag) : s.Brings (s.mergeTag t).2 (some t.id) := by
  unfold mergeTag
  split
  · exact .refl s (some t.id)
  · exact brings_tags t

theorem brings_mergeApplication (a : Application) :
    s.Brings (s.mergeApplication a).2 (some a.id) := by
  unfold mergeApplication
  split
  · exact .refl s (some a.id)
  · exact brings_saveApplication a

theorem brings_mergeTrace {t : Trace} (h : ¬s.Has .trace t.id) (hs : t.spans = ∅) :
    s.Brings (s.mergeTrace t).2 (some t.id) := by
  have hnone : s.traces.get? t.id = none := Option.not_isSome_iff_eq_none.1 h
  unfold mergeTrace
  split
  · exact .refl s (some t.id)
  · exact brings_traces
      (Sorted.eq_edgesAt_of_none hnone (Sorted.forall_mem_of_empty hs))

theorem brings_mergeSpan (p : Span) : s.Brings (s.mergeSpan p).2 (some p.id) := by
  unfold mergeSpan
  split
  · exact .refl s (some p.id)
  · exact brings_saveSpan p

end Merges

section Saves

theorem brings_saveCommit {c : Commit} (hp : ∀ b ∈ c.parents, s.HasEdge .commitParent c.id b)
    (hf : ∀ b ∈ c.fileRevisions, s.HasEdge .commitFile c.id b)
    (ht : ∀ b ∈ c.tags, s.HasEdge .commitTag c.id b) : s.Brings (s.saveCommit c) (some c.id) := by
  unfold saveCommit
  cases hget : s.commits.get? c.id with
  | none =>
    exact brings_commits (Sorted.eq_edgesAt_of_none hget hp)
      (Sorted.eq_edgesAt_of_none hget hf) (Sorted.eq_edgesAt_of_none hget ht)
  | some old =>
    exact brings_commits (Sorted.union_eq_edgesAt hget hp) (Sorted.union_eq_edgesAt hget hf)
      (Sorted.union_eq_edgesAt hget ht)

theorem brings_saveDirectory {d : Directory}
    (hs : ∀ b ∈ d.subdirectories, s.HasEdge .directorySubdirectory d.id b)
    (hf : ∀ b ∈ d.fileRevisions, s.HasEdge .directoryFile d.id b)
    (hp : ∀ p, d.parent = some p → s.parentOf .directory d.id = some p) :
    s.Brings (s.saveDirectory d) (some d.id) := by
  unfold saveDirectory
  cases hget : s.directories.get? d.id with
  | none =>
    exact brings_directories (Sorted.eq_edgesAt_of_none hget hs)
      (Sorted.eq_edgesAt_of_none hget hf) (Sorted.eq_bind_of_none hget hp)
  | some old =>
    exact brings_directories (Sorted.union_eq_edgesAt hget hs)
      (Sorted.union_eq_edgesAt hget hf) (Sorted.or_eq_bind hget hp)

theorem brings_saveFile {f : FileRevision} (hc : ∀ b ∈ f.classes, s.HasEdge .fileClass f.id b)
    (hf : ∀ b ∈ f.functions, s.HasEdge .fileFunction f.id b)
    (hp : ∀ p, f.parent = some p → s.parentOf .fileRevision f.id = some p) :
    s.Brings (s.saveFile f) (some f.id) := by
  unfold saveFile
  cases hget : s.files.get? f.id with
  | none =>
    exact brings_files (Sorted.eq_edgesAt_of_none hget hc)
      (Sorted.eq_edgesAt_of_none hget hf) (Sorted.eq_bind_of_none hget hp)
  | some old =>
    exact brings_files (Sorted.union_eq_edgesAt hget hc) (Sorted.union_eq_edgesAt hget hf)
      (Sorted.or_eq_bind hget hp)

theorem brings_saveClass {c : ClassNode}
    (hf : ∀ b ∈ c.functions, s.HasEdge .classFunction c.id b)
    (hi : ∀ b ∈ c.innerClasses, s.HasEdge .classInnerClass c.id b)
    (hu : ∀ b ∈ c.superClasses, s.HasEdge .classSuperClass c.id b) :
    s.Brings (s.saveClass c) (some c.id) := by
  unfold saveClass
  cases hget : s.classes.get? c.id with
  | none =>
    exact brings_classes (Sorted.eq_edgesAt_of_none hget hf)
      (Sorted.eq_edgesAt_of_none hget hi) (Sorted.eq_edgesAt_of_none hget hu)
  | some old =>
    exact brings_classes (Sorted.union_eq_edgesAt hget hf) (Sorted.union_eq_edgesAt hget hi)
      (Sorted.union_eq_edgesAt hget hu)

theorem brings_saveTrace {t : Trace} (hs : ∀ b ∈ t.spans, s.HasEdge .traceSpan t.id b) :
    s.Brings (s.saveTrace t) (some t.id) := by
  unfold saveTrace
  cases hget : s.traces.get? t.id with
  | none => exact brings_traces (Sorted.eq_edgesAt_of_none hget hs)
  | some old => exact brings_traces (Sorted.union_eq_edgesAt hget hs)

end Saves

/-! ## Edges that are added -/

variable {relation : Relation} {a b id : NodeId}

/-- No edge, no parent and no node is lost. -/
structure Retains (s s' : Store) : Prop where
  edges : ∀ relation a b, s.HasEdge relation a b → s'.HasEdge relation a b
  parents : ∀ kind id p, s.parentOf kind id = some p → s'.parentOf kind id = some p
  has : ∀ kind id, s.Has kind id → s'.Has kind id

theorem Retains.refl (s : Store) : s.Retains s :=
  ⟨fun _ _ _ h => h, fun _ _ _ h => h, fun _ _ h => h⟩

theorem Retains.trans {s'' : Store} (h : s.Retains s') (h' : s'.Retains s'') : s.Retains s'' where
  edges relation a b hab := h'.edges relation a b (h.edges relation a b hab)
  parents kind id p hp := h'.parents kind id p (h.parents kind id p hp)
  has kind id hid := h'.has kind id (h.has kind id hid)

theorem Brings.retains {node : Option NodeId} (h : s.Brings s' node) : s.Retains s' where
  edges relation a b hab := by
    unfold HasEdge
    rw [h.edges]
    exact hab
  parents kind id p hp := (h.parents kind id).trans hp
  has := h.has

theorem Linkable.retains (h : s.Linkable relation a b) :
    s.Retains (s.withEdge relation a b) where
  edges other x y hxy := (hasEdge_withEdge h.source).2 (.inl hxy)
  parents kind id p hp := by
    by_cases hb : relation.Contains ∧ (kind, id) = (relation.target, b)
    · obtain ⟨hc, hb⟩ := hb
      obtain ⟨rfl, rfl⟩ := Prod.mk.inj hb
      rw [parentOf_withEdge hc h.target]
      rcases h.parent hc with hnone | hsome
      · cases hnone.symm.trans hp
      · exact hsome.symm.trans hp
    · rw [parentOf_withEdge_of_ne fun hc he => hb ⟨hc, he⟩]
      exact hp
  has kind id := (has_withEdge kind).2

/-! ## Rules that hold at all times -/

/-- Edges start and end at nodes, and a node knows the directory it lies in. -/
structure Wired (s : Store) : Prop where
  ends : ∀ relation a b, s.HasEdge relation a b →
    s.Has relation.source a ∧ s.Has relation.target b
  parent : ∀ relation a b, Relation.Contains relation →
    (s.parentOf relation.target b = some a ↔ s.HasEdge relation a b)
  proper : ∀ a, ¬s.HasEdge .directorySubdirectory a a

theorem wired_empty : (∅ : Store).Wired where
  ends relation a b h := by cases relation <;> exact absurd h (Sorted.not_mem_empty b)
  parent relation a b hc := by
    rcases hc with rfl | rfl
    · exact ⟨nofun, fun h => absurd h (Sorted.not_mem_empty b)⟩
    · exact ⟨nofun, fun h => absurd h (Sorted.not_mem_empty b)⟩
  proper a := Sorted.not_mem_empty a

theorem Wired.of_brings {node : Option NodeId} (h : s.Wired) (hs : s.Brings s' node) :
    s'.Wired where
  ends relation a b hab := by
    unfold HasEdge at hab
    rw [hs.edges] at hab
    exact (h.ends relation a b hab).imp (hs.has _ a) (hs.has _ b)
  parent relation a b hc := by
    unfold HasEdge
    rw [hs.edges, hs.parents]
    exact h.parent relation a b hc
  proper a := by
    unfold HasEdge
    rw [hs.edges]
    exact h.proper a

/-- Nothing lies in two directories. -/
theorem Wired.parent_unique (h : s.Wired) (hc : relation.Contains) {a' : NodeId}
    (hab : s.HasEdge relation a b) (hab' : s.HasEdge relation a' b) : a = a' := by
  have hp : s.parentOf relation.target b = some a := (h.parent relation a b hc).2 hab
  have hp' : s.parentOf relation.target b = some a' := (h.parent relation a' b hc).2 hab'
  exact Option.some.inj (hp.symm.trans hp')

theorem Wired.withEdge (h : s.Wired) (hl : s.Linkable relation a b) :
    (s.withEdge relation a b).Wired where
  ends other x y hxy := by
    rw [has_withEdge, has_withEdge]
    rcases (hasEdge_withEdge hl.source).1 hxy with hxy | ⟨rfl, rfl, rfl⟩
    · exact h.ends other x y hxy
    · exact ⟨hl.source, hl.target⟩
  parent other x y hc := by
    rw [hasEdge_withEdge hl.source]
    by_cases hsame : relation.Contains ∧ (other.target, y) = (relation.target, b)
    · -- the target of the new edge has one parent now, and had none but this one before
      obtain ⟨hc', hsame⟩ := hsame
      obtain ⟨ht, rfl⟩ := Prod.mk.inj hsame
      obtain rfl : other = relation := Relation.eq_of_target hc hc' ht
      rw [parentOf_withEdge hc hl.target, ← h.parent other x y hc]
      rcases hl.parent hc with hp | hp <;> simp [hp, eq_comm]
    · rw [parentOf_withEdge_of_ne fun hc' he => hsame ⟨hc', he⟩, h.parent other x y hc]
      refine ⟨.inl, ?_⟩
      rintro (hxy | ⟨rfl, -, rfl⟩)
      · exact hxy
      · exact absurd ⟨hc, rfl⟩ hsame
  proper x hx := by
    rcases (hasEdge_withEdge hl.source).1 hx with hx | ⟨rfl, rfl, hxb⟩
    · exact h.proper x hx
    · exact hl.proper rfl hxb

end Store

end Cityscape
