import Cityscape.Graph.Edge
import Cityscape.Proofs.Sorted

/-!
# Laws of editing

What one edit after another comes to, and what the store is after an edge has been added whose
ends exist. Adding an edge that is there already leaves the store as it is, so both outcomes are
described by one equation.
-/

namespace Cityscape
namespace Edit

variable {α β : Type} {s s' : Store}

@[simp] theorem pure_apply (a : α) (s : Store) :
    (pure a : Edit α) s = { result := .ok a, store := s } := rfl

@[simp] theorem change_apply (f : Store → Store) (s : Store) :
    change f s = { result := .ok (), store := f s } := rfl

@[simp] theorem step_apply (f : Store → α × Store) (s : Store) :
    step f s = { result := .ok (f s).1, store := (f s).2 } := rfl

@[simp] theorem allocate_apply (s : Store) :
    allocate s
      = { result := .ok ⟨s.nextId⟩, store := { s with nextId := s.nextId + 1 }, issued := 1 } := rfl

theorem bind_of_ok {e : Edit α} {f : α → Edit β} {a : α} {j : Nat}
    (h : e s = { result := .ok a, store := s', issued := j }) :
    (e >>= f) s = { f a s' with issued := j + (f a s').issued } := by
  show andThen e f s = _
  unfold andThen
  rw [h]

theorem bind_of_value {e : Edit α} {f : α → Edit β} {a : α}
    (h : e s = { result := .ok a, store := s' }) : (e >>= f) s = f a s' := by
  rw [bind_of_ok h, Nat.zero_add]

theorem bind_of_error {e : Edit α} {f : α → Edit β} {x : Fault} {j : Nat}
    (h : e s = { result := .error x, store := s', issued := j }) :
    (e >>= f) s = { result := .error x, store := s', issued := j } := by
  show andThen e f s = _
  unfold andThen
  rw [h]

/-- Merging a node under a new id. -/
theorem allocate_step_apply (merge : NodeId → Store → α × Store) (s : Store) :
    (allocate >>= fun id => step (merge id)) s
      = { result := .ok (merge ⟨s.nextId⟩ { s with nextId := s.nextId + 1 }).1
          store := (merge ⟨s.nextId⟩ { s with nextId := s.nextId + 1 }).2
          issued := 1 } := rfl

theorem store_bind (f : Store → Edit β) (s : Store) : (store >>= f) s = f s s :=
  bind_of_value rfl

theorem orElse_of_ok {e : Edit α} {f : Fault → Edit α} {a : α} {j : Nat}
    (h : e s = { result := .ok a, store := s', issued := j }) : orElse e f s = e s := by
  unfold orElse
  rw [h]

theorem orElse_of_error {e : Edit α} {f : Fault → Edit α} {x : Fault} {j : Nat}
    (h : e s = { result := .error x, store := s', issued := j }) :
    orElse e f s = { f x s' with issued := j + (f x s').issued } := by
  unfold orElse
  rw [h]

end Edit

/-! ## Merging nodes

The node that is stored under the key stays; if there is none, the given one comes in. -/

namespace Store

variable {s : Store}

theorem mergeRepository_of_none {r : Repository} (h : s.findRepository r.token r.name = none) :
    s.mergeRepository r = (r, { s with repositories := s.repositories.insert r }) := by
  unfold mergeRepository
  rw [h]

theorem mergeBranch_of_none {b : Branch} (h : s.findBranch b.repository b.name = none) :
    s.mergeBranch b = (b, { s with branches := s.branches.insert b }) := by
  unfold mergeBranch
  rw [h]

theorem mergeCommit_of_none {c : Commit} (h : s.findCommit c.token c.hash = none) :
    s.mergeCommit c = (c, { s with commits := s.commits.insert c }) := by
  unfold mergeCommit
  rw [h]

theorem mergeTag_of_some {t found : Tag} (h : s.findTag t.name = some found) :
    s.mergeTag t = (found, s) := by
  unfold mergeTag
  rw [h]

theorem mergeTag_of_none {t : Tag} (h : s.findTag t.name = none) :
    s.mergeTag t = (t, { s with tags := s.tags.insert t }) := by
  unfold mergeTag
  rw [h]

theorem mergeApplication_of_some {a found : Application}
    (h : s.findApplication a.token a.name = some found) :
    s.mergeApplication a = (found, s) := by
  unfold mergeApplication
  rw [h]

theorem mergeApplication_of_none {a : Application} (h : s.findApplication a.token a.name = none) :
    s.mergeApplication a = (a, { s with applications := s.applications.insert a }) := by
  unfold mergeApplication
  rw [h]

theorem mergeTrace_of_some {t found : Trace} (h : s.findTrace t.token t.traceId = some found) :
    s.mergeTrace t = (found, s) := by
  unfold mergeTrace
  rw [h]

theorem mergeTrace_of_none {t : Trace} (h : s.findTrace t.token t.traceId = none) :
    s.mergeTrace t = (t, { s with traces := s.traces.insert t }) := by
  unfold mergeTrace
  rw [h]

theorem mergeSpan_of_some {p found : Span} (h : s.findSpan p.token p.spanId = some found) :
    s.mergeSpan p = (found, s) := by
  unfold mergeSpan
  rw [h]

theorem mergeSpan_of_none {p : Span} (h : s.findSpan p.token p.spanId = none) :
    s.mergeSpan p = (p, { s with spans := s.spans.insert p }) := by
  unfold mergeSpan
  rw [h]

end Store

/-! ## Adding edges -/

namespace Edit

section Tables

variable {α β : Type} {key : α → NodeId} {key' : β → NodeId} {s : Store} {t : NodeTable key}
  {t' : NodeTable key'} {a : α} {b : β} {id source target : NodeId} {edges : α → SortedSet NodeId}
  {withEdges : α → SortedSet NodeId → α}

theorem require_of_get? (h : (t.get s).get? id = some a) :
    require t id s = { result := .ok a, store := s } := by
  unfold require
  rw [store_bind, h]
  rfl

theorem require_of_none (h : (t.get s).get? id = none) :
    require t id s = { result := .error (.edge (.missing t.kind id)), store := s } := by
  unfold require
  rw [store_bind, h]
  rfl

/-- Adding an edge at a node that exists puts the target into its edge set. -/
theorem link_of_get? (h : (t.get s).get? source = some a) (hself : withEdges a (edges a) = a) :
    link t source target edges withEdges s
      = { result := .ok (!(edges a).contains target)
          store := t.put s ((t.get s).insert (withEdges a ((edges a).insert target))) } := by
  unfold link
  rw [bind_of_value (require_of_get? h)]
  by_cases hc : (edges a).contains target = true
  · have hset : (edges a).insert target = edges a :=
      SortedSet.insert_eq_self (SortedSet.contains_iff.1 hc)
    have htab : (t.get s).insert a = t.get s := Sorted.insert_eq_self (Sorted.mem_of_get? h)
    rw [if_pos hc, hset, hself, htab, t.put_get, hc]
    rfl
  · rw [if_neg hc, Bool.eq_false_iff.2 hc]
    rfl

theorem link_of_none (h : (t.get s).get? source = none) :
    link t source target edges withEdges s
      = { result := .error (.edge (.missing t.kind source)), store := s } := by
  unfold link
  rw [bind_of_error (require_of_none h)]

/-- An edge whose target exists is added at its source. -/
theorem require_link (hb : (t'.get s).get? target = some b)
    (ha : (t.get s).get? source = some a) (hself : withEdges a (edges a) = a) :
    (do let _ ← require t' target
        link t source target edges withEdges : Edit Bool) s
      = { result := .ok (!(edges a).contains target)
          store := t.put s ((t.get s).insert (withEdges a ((edges a).insert target))) } :=
  (bind_of_value (require_of_get? hb)).trans (link_of_get? ha hself)

end Tables

variable {s : Store}

theorem mergeEdge_repositoryCommit {r : Repository} {id : NodeId} {x : Commit}
    (hr : s.repositories.get? r.id = some r) (hx : s.commits.get? id = some x) :
    ∃ isNew, mergeEdge .repositoryCommit r.id id s
      = { result := .ok isNew
          store := { s with
            repositories := s.repositories.insert { r with commits := r.commits.insert id } } } :=
  ⟨_, require_link hx hr rfl⟩

theorem mergeEdge_repositoryBranch {r : Repository} {id : NodeId} {x : Branch}
    (hr : s.repositories.get? r.id = some r) (hx : s.branches.get? id = some x) :
    ∃ isNew, mergeEdge .repositoryBranch r.id id s
      = { result := .ok isNew
          store := { s with
            repositories := s.repositories.insert { r with branches := r.branches.insert id } } } :=
  ⟨_, require_link hx hr rfl⟩

theorem mergeEdge_commitParent {c : Commit} {id : NodeId} {x : Commit}
    (hc : s.commits.get? c.id = some c) (hx : s.commits.get? id = some x) :
    ∃ isNew, mergeEdge .commitParent c.id id s
      = { result := .ok isNew
          store := { s with
            commits := s.commits.insert { c with parents := c.parents.insert id } } } :=
  ⟨_, require_link hx hc rfl⟩

theorem mergeEdge_commitFile {c : Commit} {id : NodeId} {x : FileRevision}
    (hc : s.commits.get? c.id = some c) (hx : s.files.get? id = some x) :
    ∃ isNew, mergeEdge .commitFile c.id id s
      = { result := .ok isNew
          store := { s with
            commits := s.commits.insert { c with fileRevisions := c.fileRevisions.insert id } } } :=
  ⟨_, require_link hx hc rfl⟩

theorem mergeEdge_commitTag {c : Commit} {id : NodeId} {x : Tag}
    (hc : s.commits.get? c.id = some c) (hx : s.tags.get? id = some x) :
    ∃ isNew, mergeEdge .commitTag c.id id s
      = { result := .ok isNew
          store := { s with
            commits := s.commits.insert { c with tags := c.tags.insert id } } } :=
  ⟨_, require_link hx hc rfl⟩

theorem mergeEdge_fileClass {f : FileRevision} {id : NodeId} {x : ClassNode}
    (hf : s.files.get? f.id = some f) (hx : s.classes.get? id = some x) :
    ∃ isNew, mergeEdge .fileClass f.id id s
      = { result := .ok isNew
          store := { s with
            files := s.files.insert { f with classes := f.classes.insert id } } } :=
  ⟨_, require_link hx hf rfl⟩

theorem mergeEdge_fileFunction {f : FileRevision} {id : NodeId} {x : FunctionNode}
    (hf : s.files.get? f.id = some f) (hx : s.functions.get? id = some x) :
    ∃ isNew, mergeEdge .fileFunction f.id id s
      = { result := .ok isNew
          store := { s with
            files := s.files.insert { f with functions := f.functions.insert id } } } :=
  ⟨_, require_link hx hf rfl⟩

theorem mergeEdge_classFunction {k : ClassNode} {id : NodeId} {x : FunctionNode}
    (hk : s.classes.get? k.id = some k) (hx : s.functions.get? id = some x) :
    ∃ isNew, mergeEdge .classFunction k.id id s
      = { result := .ok isNew
          store := { s with
            classes := s.classes.insert { k with functions := k.functions.insert id } } } :=
  ⟨_, require_link hx hk rfl⟩

theorem mergeEdge_classInnerClass {k : ClassNode} {id : NodeId} {x : ClassNode}
    (hk : s.classes.get? k.id = some k) (hx : s.classes.get? id = some x) :
    ∃ isNew, mergeEdge .classInnerClass k.id id s
      = { result := .ok isNew
          store := { s with
            classes := s.classes.insert { k with innerClasses := k.innerClasses.insert id } } } :=
  ⟨_, require_link hx hk rfl⟩

theorem mergeEdge_classSuperClass {k : ClassNode} {id : NodeId} {x : ClassNode}
    (hk : s.classes.get? k.id = some k) (hx : s.classes.get? id = some x) :
    ∃ isNew, mergeEdge .classSuperClass k.id id s
      = { result := .ok isNew
          store := { s with
            classes := s.classes.insert { k with superClasses := k.superClasses.insert id } } } :=
  ⟨_, require_link hx hk rfl⟩

theorem mergeEdge_traceSpan {t : Trace} {id : NodeId} {x : Span}
    (ht : s.traces.get? t.id = some t) (hx : s.spans.get? id = some x) :
    ∃ isNew, mergeEdge .traceSpan t.id id s
      = { result := .ok isNew
          store := { s with
            traces := s.traces.insert { t with spans := t.spans.insert id } } } :=
  ⟨_, require_link hx ht rfl⟩

end Edit
end Cityscape
