import Cityscape.Proofs.Sound
import Cityscape.Proofs.Wiring

/-!
# `Interleavings`: no update is lost

Any number of parties may work on one store. They hand out ids, bring in new nodes, add edges, and
save copies of nodes that they have read at some earlier moment and changed since, but for the
edges. Their operations take place one after another in any order. A journal keeps what was there at
each moment, so that it can tell which copies may exist.

An operation leaves all edges as they are, however old a copy it saves, or adds an edge that may be
there (`Journal.Sound.step_cases`). So no edge is ever lost, and the parents always agree with the
contents of the directories (`Journal.no_lost_updates`).
-/

namespace Cityscape

/-! ## Operations -/

/-- What a party may do to a store. -/
inductive Operation where
  | allocate
  | mergeRepository (r : Repository)
  | mergeBranch (b : Branch)
  | mergeCommit (c : Commit)
  | mergeTag (t : Tag)
  | mergeApplication (a : Application)
  | mergeTrace (t : Trace)
  | mergeSpan (p : Span)
  | saveCommit (c : Commit)
  | saveDirectory (d : Directory)
  | saveFile (f : FileRevision)
  | saveClass (c : ClassNode)
  | saveFunction (f : FunctionNode)
  | saveApplication (a : Application)
  | saveTrace (t : Trace)
  | saveSpan (p : Span)
  | mergeEdge (relation : Relation) (source target : NodeId)

namespace Operation

/-- The store after an operation. -/
def run (s : Store) : Operation → Store
  | allocate => s.allocate.2
  | mergeRepository r => (s.mergeRepository r).2
  | mergeBranch b => (s.mergeBranch b).2
  | mergeCommit c => (s.mergeCommit c).2
  | mergeTag t => (s.mergeTag t).2
  | mergeApplication a => (s.mergeApplication a).2
  | mergeTrace t => (s.mergeTrace t).2
  | mergeSpan p => (s.mergeSpan p).2
  | saveCommit c => s.saveCommit c
  | saveDirectory d => s.saveDirectory d
  | saveFile f => s.saveFile f
  | saveClass c => s.saveClass c
  | saveFunction f => s.saveFunction f
  | saveApplication a => s.saveApplication a
  | saveTrace t => s.saveTrace t
  | saveSpan p => s.saveSpan p
  | mergeEdge relation source target => (Edit.mergeEdge relation source target s).store

/-- The id of the node that an operation merges or saves. -/
def node? : Operation → Option NodeId
  | allocate | mergeEdge _ _ _ => none
  | mergeRepository x => some x.id
  | mergeBranch x => some x.id
  | mergeCommit x | saveCommit x => some x.id
  | mergeTag x => some x.id
  | mergeApplication x | saveApplication x => some x.id
  | mergeTrace x | saveTrace x => some x.id
  | mergeSpan x | saveSpan x => some x.id
  | saveDirectory x => some x.id
  | saveFile x => some x.id
  | saveClass x => some x.id
  | saveFunction x => some x.id

end Operation

/-! ## Links: the edge sets and the parent of a node -/

/-- The edge sets of a repository. -/
def Repository.links (r : Repository) : SortedSet NodeId × SortedSet NodeId :=
  (r.commits, r.branches)

/-- The edge sets of a commit. -/
def Commit.links (c : Commit) : SortedSet NodeId × SortedSet NodeId × SortedSet NodeId :=
  (c.parents, c.fileRevisions, c.tags)

/-- The parent and the edge sets of a directory. -/
def Directory.links (d : Directory) : Option NodeId × SortedSet NodeId × SortedSet NodeId :=
  (d.parent, d.subdirectories, d.fileRevisions)

/-- The parent and the edge sets of a file revision. -/
def FileRevision.links (f : FileRevision) : Option NodeId × SortedSet NodeId × SortedSet NodeId :=
  (f.parent, f.classes, f.functions)

/-- The edge sets of a class. -/
def ClassNode.links (c : ClassNode) : SortedSet NodeId × SortedSet NodeId × SortedSet NodeId :=
  (c.functions, c.innerClasses, c.superClasses)

/-! ## Journals -/

instance (s : Store) (kind : NodeKind) (id : NodeId) : Decidable (s.Has kind id) := by
  cases kind <;> unfold Store.Has <;> infer_instance

/-- A store with its history. -/
structure Journal where
  store : Store := ∅
  /-- The ids that have been handed out. -/
  issued : List NodeId := []
  /-- The stores of all moments up to now. -/
  moments : List Store := [∅]

namespace Journal

/-- The journal after an operation. -/
def next (j : Journal) (op : Operation) : Journal where
  store := op.run j.store
  issued := if op matches .allocate then j.store.allocate.1 :: j.issued else j.issued
  moments := op.run j.store :: j.moments

/-- A node with this id may come in: the id was handed out, and there is no such node yet. -/
def New (j : Journal) (kind : NodeKind) (id : NodeId) : Prop :=
  id ∈ j.issued ∧ ¬j.store.Has kind id

instance (j : Journal) (kind : NodeKind) (id : NodeId) : Decidable (j.New kind id) :=
  inferInstanceAs (Decidable (_ ∧ _))

/-- A node has been read at some moment with these links. -/
def Read {α : Type} (j : Journal) (links : Store → Option α) (l : α) : Prop :=
  ∃ s ∈ j.moments, links s = some l

instance {α : Type} [DecidableEq α] (j : Journal) (links : Store → Option α) (l : α) :
    Decidable (j.Read links l) := inferInstanceAs (Decidable (∃ s ∈ j.moments, _))

/-- A node that comes in has neither edges nor a parent. A node of a kind that has edges may also be
saved if it has been read at some moment and has kept its id, its edges and its parent since. Edges
may be asked for between any two ids. -/
def Allows (j : Journal) : Operation → Prop
  | .allocate | .mergeEdge _ _ _ => True
  | .mergeRepository x => j.New .repository x.id ∧ x.links = (∅, ∅)
  | .mergeBranch x => j.New .branch x.id
  | .mergeCommit x => j.New .commit x.id ∧ x.links = (∅, ∅, ∅)
  | .mergeTag x => j.New .tag x.id
  | .mergeApplication x | .saveApplication x => x.id ∈ j.issued
  | .mergeTrace x => j.New .trace x.id ∧ x.spans = ∅
  | .mergeSpan x | .saveSpan x => j.New .span x.id
  | .saveFunction x => j.New .function x.id
  | .saveCommit x => j.New .commit x.id ∧ x.links = (∅, ∅, ∅) ∨
      j.Read (fun s => (s.commits.get? x.id).map Commit.links) x.links
  | .saveDirectory x => j.New .directory x.id ∧ x.links = (none, ∅, ∅) ∨
      j.Read (fun s => (s.directories.get? x.id).map Directory.links) x.links
  | .saveFile x => j.New .fileRevision x.id ∧ x.links = (none, ∅, ∅) ∨
      j.Read (fun s => (s.files.get? x.id).map FileRevision.links) x.links
  | .saveClass x => j.New .classNode x.id ∧ x.links = (∅, ∅, ∅) ∨
      j.Read (fun s => (s.classes.get? x.id).map ClassNode.links) x.links
  | .saveTrace x => j.New .trace x.id ∧ x.spans = ∅ ∨
      j.Read (fun s => (s.traces.get? x.id).map Trace.spans) x.spans

instance (j : Journal) (op : Operation) : Decidable (j.Allows op) := by
  cases op <;> unfold Allows <;> infer_instance

/-- The journal after operations. -/
def after (j : Journal) : List Operation → Journal
  | [] => j
  | op :: rest => (j.next op).after rest

/-- Each operation is allowed when it takes place. -/
def Follows (j : Journal) : List Operation → Prop
  | [] => True
  | op :: rest => j.Allows op ∧ (j.next op).Follows rest

instance decidableFollows : (j : Journal) → (ops : List Operation) → Decidable (j.Follows ops)
  | _, [] => isTrue trivial
  | j, op :: rest =>
    have := decidableFollows (j.next op) rest
    inferInstanceAs (Decidable (_ ∧ _))

end Journal

/-! ## One operation -/

namespace Operation

variable {s : Store}

/-- Asking for an edge adds it, if it may be there. -/
theorem run_mergeEdge (s : Store) (relation : Relation) (a b : NodeId) :
    (mergeEdge relation a b).run s = s ∨
      s.Linkable relation a b ∧ (mergeEdge relation a b).run s = s.withEdge relation a b := by
  show (Edit.mergeEdge relation a b s).store = s ∨ _ ∧ (Edit.mergeEdge relation a b s).store = _
  by_cases hlink : s.Linkable relation a b
  · exact .inr ⟨hlink, by rw [Store.mergeEdge_of_linkable hlink]⟩
  · obtain ⟨e, he⟩ := Store.mergeEdge_of_not_linkable hlink
    exact .inl (by rw [he])

/-- Only `allocate` counts ids. -/
theorem nextId_run {op : Operation} (h : op ≠ .allocate) : (op.run s).nextId = s.nextId := by
  cases op with
  | allocate => exact absurd rfl h
  | mergeEdge relation a b =>
    rcases run_mergeEdge s relation a b with hs | ⟨-, hs⟩
    · rw [hs]
    · rw [hs]
      cases relation <;> rfl
  | mergeRepository r =>
    show (s.mergeRepository r).2.nextId = s.nextId
    unfold Store.mergeRepository
    split <;> rfl
  | mergeBranch b =>
    show (s.mergeBranch b).2.nextId = s.nextId
    unfold Store.mergeBranch
    split <;> rfl
  | mergeCommit c =>
    show (s.mergeCommit c).2.nextId = s.nextId
    unfold Store.mergeCommit
    split <;> rfl
  | mergeTag t =>
    show (s.mergeTag t).2.nextId = s.nextId
    unfold Store.mergeTag
    split <;> rfl
  | mergeApplication a =>
    show (s.mergeApplication a).2.nextId = s.nextId
    unfold Store.mergeApplication
    split <;> rfl
  | mergeTrace t =>
    show (s.mergeTrace t).2.nextId = s.nextId
    unfold Store.mergeTrace
    split <;> rfl
  | mergeSpan p =>
    show (s.mergeSpan p).2.nextId = s.nextId
    unfold Store.mergeSpan
    split <;> rfl
  | _ => rfl

end Operation

namespace Journal

/-- What a journal keeps. -/
structure Sound (j : Journal) : Prop where
  wired : j.store.Wired
  moments : ∀ s ∈ j.moments, s.Retains j.store

variable {j : Journal} {op : Operation}

/-! ### Saved copies -/

theorem Sound.brings_saveCommit {c : Commit} (h : j.Sound) (ha : j.Allows (.saveCommit c)) :
    j.store.Brings (j.store.saveCommit c) (some c.id) := by
  rcases ha with ⟨-, hl⟩ | ⟨s, hs, hl⟩
  · obtain ⟨hp, hl⟩ := Prod.mk.inj hl
    obtain ⟨hf, ht⟩ := Prod.mk.inj hl
    exact Store.brings_saveCommit (Sorted.forall_mem_of_empty hp)
      (Sorted.forall_mem_of_empty hf) (Sorted.forall_mem_of_empty ht)
  · obtain ⟨x, hx, hl⟩ := Option.map_eq_some_iff.1 hl
    obtain ⟨hp, hl⟩ := Prod.mk.inj hl
    obtain ⟨hf, ht⟩ := Prod.mk.inj hl
    have hkept := (h.moments s hs).edges
    refine Store.brings_saveCommit (fun b hb => hkept _ _ _ ?_) (fun b hb => hkept _ _ _ ?_)
      fun b hb => hkept _ _ _ ?_
    · exact Sorted.mem_edgesAt_of_get? hx (hp ▸ hb)
    · exact Sorted.mem_edgesAt_of_get? hx (hf ▸ hb)
    · exact Sorted.mem_edgesAt_of_get? hx (ht ▸ hb)

theorem Sound.brings_saveDirectory {d : Directory} (h : j.Sound)
    (ha : j.Allows (.saveDirectory d)) : j.store.Brings (j.store.saveDirectory d) (some d.id) := by
  rcases ha with ⟨-, hl⟩ | ⟨s, hs, hl⟩
  · obtain ⟨hp, hl⟩ := Prod.mk.inj hl
    obtain ⟨hd, hf⟩ := Prod.mk.inj hl
    exact Store.brings_saveDirectory (Sorted.forall_mem_of_empty hd)
      (Sorted.forall_mem_of_empty hf) fun p h => nomatch hp.symm.trans h
  · obtain ⟨x, hx, hl⟩ := Option.map_eq_some_iff.1 hl
    obtain ⟨hp, hl⟩ := Prod.mk.inj hl
    obtain ⟨hd, hf⟩ := Prod.mk.inj hl
    have hkept := h.moments s hs
    refine Store.brings_saveDirectory (fun b hb => hkept.edges _ _ _ ?_)
      (fun b hb => hkept.edges _ _ _ ?_) fun p h => hkept.parents _ _ _ ?_
    · exact Sorted.mem_edgesAt_of_get? hx (hd ▸ hb)
    · exact Sorted.mem_edgesAt_of_get? hx (hf ▸ hb)
    · exact Option.bind_eq_some_iff.2 ⟨x, hx, hp.trans h⟩

theorem Sound.brings_saveFile {f : FileRevision} (h : j.Sound) (ha : j.Allows (.saveFile f)) :
    j.store.Brings (j.store.saveFile f) (some f.id) := by
  rcases ha with ⟨-, hl⟩ | ⟨s, hs, hl⟩
  · obtain ⟨hp, hl⟩ := Prod.mk.inj hl
    obtain ⟨hc, hf⟩ := Prod.mk.inj hl
    exact Store.brings_saveFile (Sorted.forall_mem_of_empty hc)
      (Sorted.forall_mem_of_empty hf) fun p h => nomatch hp.symm.trans h
  · obtain ⟨x, hx, hl⟩ := Option.map_eq_some_iff.1 hl
    obtain ⟨hp, hl⟩ := Prod.mk.inj hl
    obtain ⟨hc, hf⟩ := Prod.mk.inj hl
    have hkept := h.moments s hs
    refine Store.brings_saveFile (fun b hb => hkept.edges _ _ _ ?_)
      (fun b hb => hkept.edges _ _ _ ?_) fun p h => hkept.parents _ _ _ ?_
    · exact Sorted.mem_edgesAt_of_get? hx (hc ▸ hb)
    · exact Sorted.mem_edgesAt_of_get? hx (hf ▸ hb)
    · exact Option.bind_eq_some_iff.2 ⟨x, hx, hp.trans h⟩

theorem Sound.brings_saveClass {c : ClassNode} (h : j.Sound) (ha : j.Allows (.saveClass c)) :
    j.store.Brings (j.store.saveClass c) (some c.id) := by
  rcases ha with ⟨-, hl⟩ | ⟨s, hs, hl⟩
  · obtain ⟨hf, hl⟩ := Prod.mk.inj hl
    obtain ⟨hi, hu⟩ := Prod.mk.inj hl
    exact Store.brings_saveClass (Sorted.forall_mem_of_empty hf)
      (Sorted.forall_mem_of_empty hi) (Sorted.forall_mem_of_empty hu)
  · obtain ⟨x, hx, hl⟩ := Option.map_eq_some_iff.1 hl
    obtain ⟨hf, hl⟩ := Prod.mk.inj hl
    obtain ⟨hi, hu⟩ := Prod.mk.inj hl
    have hkept := (h.moments s hs).edges
    refine Store.brings_saveClass (fun b hb => hkept _ _ _ ?_) (fun b hb => hkept _ _ _ ?_)
      fun b hb => hkept _ _ _ ?_
    · exact Sorted.mem_edgesAt_of_get? hx (hf ▸ hb)
    · exact Sorted.mem_edgesAt_of_get? hx (hi ▸ hb)
    · exact Sorted.mem_edgesAt_of_get? hx (hu ▸ hb)

theorem Sound.brings_saveTrace {t : Trace} (h : j.Sound) (ha : j.Allows (.saveTrace t)) :
    j.store.Brings (j.store.saveTrace t) (some t.id) := by
  rcases ha with ⟨-, hl⟩ | ⟨s, hs, hl⟩
  · exact Store.brings_saveTrace (Sorted.forall_mem_of_empty hl)
  · obtain ⟨x, hx, hl⟩ := Option.map_eq_some_iff.1 hl
    refine Store.brings_saveTrace fun b hb => (h.moments s hs).edges _ _ _ ?_
    exact Sorted.mem_edgesAt_of_get? hx (hl ▸ hb)

/-! ### What every operation keeps -/

/-- An operation leaves all edges as they are or adds one that may be there. -/
theorem Sound.step_cases (h : j.Sound) (ha : j.Allows op) :
    j.store.Brings (op.run j.store) op.node? ∨ ∃ relation a b,
      j.store.Linkable relation a b ∧ op.run j.store = j.store.withEdge relation a b := by
  cases op with
  | mergeEdge relation a b =>
    rcases Operation.run_mergeEdge j.store relation a b with hs | hl
    · rw [hs]
      exact .inl (.refl j.store none)
    · exact .inr ⟨relation, a, b, hl⟩
  | allocate => exact .inl Store.brings_allocate
  | mergeRepository r =>
    obtain ⟨hnew, hl⟩ := ha
    obtain ⟨hc, hb⟩ := Prod.mk.inj hl
    exact .inl (Store.brings_mergeRepository hnew.2 hc hb)
  | mergeBranch b => exact .inl (Store.brings_mergeBranch b)
  | mergeCommit c =>
    obtain ⟨hnew, hl⟩ := ha
    obtain ⟨hp, hl⟩ := Prod.mk.inj hl
    obtain ⟨hf, ht⟩ := Prod.mk.inj hl
    exact .inl (Store.brings_mergeCommit hnew.2 hp hf ht)
  | mergeTag t => exact .inl (Store.brings_mergeTag t)
  | mergeApplication a => exact .inl (Store.brings_mergeApplication a)
  | mergeTrace t => exact .inl (Store.brings_mergeTrace ha.1.2 ha.2)
  | mergeSpan p => exact .inl (Store.brings_mergeSpan p)
  | saveCommit c => exact .inl (h.brings_saveCommit ha)
  | saveDirectory d => exact .inl (h.brings_saveDirectory ha)
  | saveFile f => exact .inl (h.brings_saveFile ha)
  | saveClass c => exact .inl (h.brings_saveClass ha)
  | saveFunction f => exact .inl (Store.brings_saveFunction f)
  | saveApplication a => exact .inl (Store.brings_saveApplication a)
  | saveTrace t => exact .inl (h.brings_saveTrace ha)
  | saveSpan p => exact .inl (Store.brings_saveSpan p)

theorem Sound.retains (h : j.Sound) (ha : j.Allows op) : j.store.Retains (op.run j.store) := by
  rcases h.step_cases ha with hs | ⟨relation, a, b, hl, hs⟩
  · exact hs.retains
  · rw [hs]
    exact hl.retains

theorem Sound.wired_run (h : j.Sound) (ha : j.Allows op) : (op.run j.store).Wired := by
  rcases h.step_cases ha with hs | ⟨relation, a, b, hl, hs⟩
  · exact h.wired.of_brings hs
  · rw [hs]
    exact h.wired.withEdge hl

theorem Sound.next (h : j.Sound) (ha : j.Allows op) : (j.next op).Sound where
  wired := h.wired_run ha
  moments := by
    intro s hs
    rcases List.mem_cons.1 hs with rfl | hs
    · exact .refl _
    · exact (h.moments s hs).trans (h.retains ha)

theorem sound_empty : ({} : Journal).Sound where
  wired := Store.wired_empty
  moments := by
    intro s hs
    obtain rfl := List.mem_singleton.1 hs
    exact .refl ∅

/-! ## All operations -/

theorem Sound.after {ops : List Operation} :
    ∀ {j : Journal}, j.Sound → j.Follows ops → (j.after ops).Sound := by
  induction ops with
  | nil => exact fun h _ => h
  | cons op rest ih => exact fun h hf => ih (h.next hf.1) hf.2

theorem Sound.retains_after {ops : List Operation} :
    ∀ {j : Journal}, j.Sound → j.Follows ops → j.store.Retains (j.after ops).store := by
  induction ops with
  | nil => exact fun {j} _ _ => .refl j.store
  | cons op rest ih => exact fun h hf => (h.retains hf.1).trans (ih (h.next hf.1) hf.2)

theorem after_append (j : Journal) (ops more : List Operation) :
    j.after (ops ++ more) = (j.after ops).after more := by
  induction ops generalizing j with
  | nil => rfl
  | cons op rest ih => exact ih (j.next op)

theorem follows_append {ops more : List Operation} :
    ∀ {j : Journal}, j.Follows (ops ++ more) ↔ j.Follows ops ∧ (j.after ops).Follows more := by
  induction ops with
  | nil => exact fun {j} => ⟨fun h => ⟨trivial, h⟩, And.right⟩
  | cons op rest ih =>
    intro j
    show j.Allows op ∧ (j.next op).Follows (rest ++ more) ↔
      (j.Allows op ∧ (j.next op).Follows rest) ∧ _
    rw [ih, and_assoc]
    exact Iff.rfl

/-! ## Ids that are handed out are new -/

/-- The first ids have been handed out, and the nodes have some of them. -/
structure Counted (j : Journal) : Prop where
  next : j.store.nextId = UInt64.ofNat (j.issued.length + 1)
  issued : ∀ id ∈ j.issued, id.Issued j.issued.length
  nodes : ∀ kind id, j.store.Has kind id → id ∈ j.issued

theorem counted_empty : ({} : Journal).Counted where
  next := rfl
  issued := nofun
  nodes kind id h := by cases kind <;> cases h

/-- A node that comes in or is saved has an id that was handed out. -/
theorem Counted.mem_issued (hc : j.Counted) (h : j.Sound) (ha : j.Allows op) {id : NodeId}
    (hid : op.node? = some id) : id ∈ j.issued := by
  have hread {α β : Type} {l : α → β} {get : Store → Option α} {y : β} (kind : NodeKind)
      (hhas : ∀ s, (get s).isSome → s.Has kind id)
      (hr : j.Read (fun s => (get s).map l) y) : id ∈ j.issued := by
    obtain ⟨s, hs, hl⟩ := hr
    obtain ⟨x, hx, -⟩ := Option.map_eq_some_iff.1 hl
    have hmoment : s.Has kind id := hhas s (Option.isSome_iff_exists.2 ⟨x, hx⟩)
    exact hc.nodes kind id ((h.moments s hs).has kind id hmoment)
  cases op with
  | allocate | mergeEdge => cases hid
  | mergeRepository x | mergeCommit x | mergeTrace x => exact Option.some.inj hid ▸ ha.1.1
  | mergeBranch x | mergeTag x | mergeSpan x | saveSpan x | saveFunction x =>
    exact Option.some.inj hid ▸ ha.1
  | mergeApplication x | saveApplication x => exact Option.some.inj hid ▸ ha
  | saveCommit x =>
    obtain rfl := Option.some.inj hid
    exact ha.elim (fun ha => ha.1.1) (hread .commit fun _ hs => hs)
  | saveDirectory x =>
    obtain rfl := Option.some.inj hid
    exact ha.elim (fun ha => ha.1.1) (hread .directory fun _ hs => hs)
  | saveFile x =>
    obtain rfl := Option.some.inj hid
    exact ha.elim (fun ha => ha.1.1) (hread .fileRevision fun _ hs => hs)
  | saveClass x =>
    obtain rfl := Option.some.inj hid
    exact ha.elim (fun ha => ha.1.1) (hread .classNode fun _ hs => hs)
  | saveTrace x =>
    obtain rfl := Option.some.inj hid
    exact ha.elim (fun ha => ha.1.1) (hread .trace fun _ hs => hs)

theorem Counted.next_journal (hc : j.Counted) (h : j.Sound) (ha : j.Allows op)
    (hn : (j.next op).issued.length < 2 ^ 64) : (j.next op).Counted := by
  have hnode (kind : NodeKind) (id : NodeId) (hid : (op.run j.store).Has kind id) :
      id ∈ j.issued := by
    rcases h.step_cases ha with hs | ⟨relation, a, b, -, hs⟩
    · exact (hs.only kind id hid).elim (hc.nodes kind id) (hc.mem_issued h ha)
    · rw [hs, Store.has_withEdge] at hid
      exact hc.nodes kind id hid
  by_cases hop : op = .allocate
  · subst hop
    have hlast : j.store.nextId.toNat = j.issued.length + 1 := by
      rw [hc.next]
      exact UInt64.toNat_ofNat_of_lt' hn
    exact {
      next := by
        show j.store.nextId + 1 = UInt64.ofNat (j.issued.length + 1 + 1)
        rw [hc.next, UInt64.ofNat_add (j.issued.length + 1) 1]
        rfl
      issued := by
        intro id hid
        rcases List.mem_cons.1 hid with rfl | hid
        · exact Nat.le_of_eq hlast
        · exact (hc.issued id hid).mono (Nat.le_succ _)
      nodes := fun kind id hid => List.mem_cons_of_mem _ (hnode kind id hid) }
  · have hissued : (j.next op).issued = j.issued := by
      cases op <;> first | rfl | exact absurd rfl hop
    exact {
      next := by rw [hissued]; exact (Operation.nextId_run hop).trans hc.next
      issued := by rw [hissued]; exact hc.issued
      nodes := by rw [hissued]; exact hnode }

theorem length_issued_le (j : Journal) (ops : List Operation) :
    j.issued.length ≤ (j.after ops).issued.length := by
  induction ops generalizing j with
  | nil => exact Nat.le_refl _
  | cons op rest ih =>
    refine Nat.le_trans ?_ (ih (j.next op))
    show j.issued.length ≤ (if op matches .allocate then _ else _ : List NodeId).length
    split
    · exact Nat.le_succ _
    · exact Nat.le_refl _

theorem Counted.after {ops : List Operation} :
    ∀ {j : Journal}, j.Counted → j.Sound → j.Follows ops →
      (j.after ops).issued.length < 2 ^ 64 → (j.after ops).Counted := by
  induction ops with
  | nil => exact fun hc _ _ _ => hc
  | cons op rest ih =>
    intro j hc h hf hn
    have hn' : (j.next op).issued.length < 2 ^ 64 :=
      Nat.lt_of_le_of_lt ((j.next op).length_issued_le rest) hn
    exact ih (hc.next_journal h hf.1 hn') (h.next hf.1) hf.2 hn

/-- As long as there are ids left, one that is handed out is that of no node. So a party that asks
for an id may bring in a node of any kind under it. -/
theorem new_of_allocate {ops : List Operation} (h : ({} : Journal).Follows ops)
    (hn : (({} : Journal).after ops).issued.length + 1 < 2 ^ 64) (kind : NodeKind) :
    ((({} : Journal).after ops).next .allocate).New kind
      (({} : Journal).after ops).store.allocate.1 := by
  have hc := counted_empty.after sound_empty h (Nat.lt_of_succ_lt hn)
  refine ⟨List.mem_cons_self, fun hid => ?_⟩
  have hold := (Store.brings_allocate.only kind _ hid).resolve_right nofun
  have hle : (({} : Journal).after ops).store.nextId.toNat ≤ _ := hc.issued _ (hc.nodes kind _ hold)
  rw [hc.next, UInt64.toNat_ofNat_of_lt' hn] at hle
  exact Nat.not_succ_le_self _ hle

end Journal

/-! ## Edges that are asked for -/

/-- What asking for an edge comes to, at once and in a later store. -/
structure Store.EdgeTold (s : Store) (relation : Relation) (a b : NodeId) (later : Store) :
    Prop where
  /-- Whether the edge is new is told truly. -/
  new_iff : ∀ isNew, (Edit.mergeEdge relation a b s).result = .ok isNew →
    (isNew = true ↔ ¬s.HasEdge relation a b)
  /-- An edge that is there is found. -/
  found : s.HasEdge relation a b → (Edit.mergeEdge relation a b s).result = .ok false
  /-- An edge that is added or found stays. -/
  kept : ∀ isNew, (Edit.mergeEdge relation a b s).result = .ok isNew → later.HasEdge relation a b
  /-- A refused edge changes nothing. -/
  refused : ∀ e, (Edit.mergeEdge relation a b s).result = .error e →
    (Edit.mergeEdge relation a b s).store = s

theorem Store.Wired.edgeTold {s later : Store} (h : s.Wired) (relation : Relation) (a b : NodeId)
    (hr : (Edit.mergeEdge relation a b s).store.Retains later) :
    s.EdgeTold relation a b later := by
  have hfound (hedge : s.HasEdge relation a b) :
      Edit.mergeEdge relation a b s = { result := .ok false, store := s } := by
    refine Store.mergeEdge_of_hasEdge hedge (h.ends relation a b hedge).2
      (fun hc => (h.parent relation a b hc).2 hedge) ?_
    rintro rfl rfl
    exact h.proper a hedge
  by_cases hlink : s.Linkable relation a b
  · have ho := Store.mergeEdge_of_linkable hlink
    rw [ho] at hr
    have hedge : (s.withEdge relation a b).HasEdge relation a b :=
      (Store.hasEdge_withEdge hlink.source).2 (.inr ⟨rfl, rfl, rfl⟩)
    exact {
      new_iff := by
        rw [ho]
        intro isNew h
        obtain rfl := Except.ok.inj h
        exact Store.contains_edgesFrom
      found := fun hedge => congrArg Outcome.result (hfound hedge)
      kept := fun _ _ => hr.edges relation a b hedge
      refused := by rw [ho]; exact fun e h => nomatch h }
  · obtain ⟨e, ho⟩ := Store.mergeEdge_of_not_linkable hlink
    rw [ho] at hfound
    exact {
      new_iff := by rw [ho]; exact fun isNew h => nomatch h
      found := fun hedge => nomatch congrArg Outcome.result (hfound hedge)
      kept := by rw [ho]; exact fun isNew h => nomatch h
      refused := by rw [ho]; exact fun _ _ => rfl }

/-- Whatever parties do to a store in whatever order, edges start and end at nodes, the parents
agree with the contents of the directories, and nothing lies in two directories. Whoever asks for an
edge is told truly whether it is new, and an edge that was added or found stays for ever. -/
theorem Journal.no_lost_updates (ops : List Operation) (h : ({} : Journal).Follows ops) :
    let final := (({} : Journal).after ops).store
    final.Wired ∧
    (∀ relation a a' b, Relation.Contains relation → final.HasEdge relation a b →
      final.HasEdge relation a' b → a = a') ∧
    ∀ before relation a b rest, ops = before ++ .mergeEdge relation a b :: rest →
      (({} : Journal).after before).store.EdgeTold relation a b final := by
  have hsound := Journal.sound_empty.after h
  refine ⟨hsound.wired, fun relation a a' b hc => hsound.wired.parent_unique hc, ?_⟩
  rintro before relation a b rest rfl
  obtain ⟨hbefore, hallowed, hrest⟩ := Journal.follows_append.1 h
  have hs := Journal.sound_empty.after hbefore
  refine hs.wired.edgeTold relation a b ?_
  rw [Journal.after_append]
  exact (hs.next hallowed).retains_after hrest

/-- A directory gets a subdirectory, and then a copy of it that was read before is saved under
another name. -/
def Operation.sample : List Operation :=
  [.allocate, .allocate, .saveDirectory { id := 1, name := "src" },
    .saveDirectory { id := 2, name := "main" }, .mergeEdge .directorySubdirectory 1 2,
    .saveDirectory { id := 1, name := "source" }]

theorem Journal.no_lost_updates_sample :
    ({} : Journal).Follows Operation.sample ∧
      (({} : Journal).after Operation.sample).store.HasEdge .directorySubdirectory 1 2 := by
  have hfollows : ({} : Journal).Follows Operation.sample := by decide +kernel
  refine ⟨hfollows, ?_⟩
  have htold := (Journal.no_lost_updates Operation.sample hfollows).2.2 (Operation.sample.take 4)
    .directorySubdirectory 1 2 (Operation.sample.drop 5) rfl
  exact htold.kept true rfl

end Cityscape
