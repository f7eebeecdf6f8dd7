import Cityscape.Proofs.Sorted
import Cityscape.Query.CodeMetrics

/-!
# `ClassWalk`: a walk through inner classes

A walk starts from the classes of a file and goes on to the inner classes of each class that it has
not come to before, so it ends whatever the inner classes are. Its turns are told by a relation
(`Walks`), and each property of it is an induction on that. It comes to no class twice
(`Walks.nodup`). It leaves out no class that it may come to (`Walks.complete`): what is inner to a
class on the walk is on the walk itself. What it knows of the classes that are pending it knows of
all on the walk (`Walks.forall`).
-/

namespace Cityscape

variable {inner : ClassNode → List ClassNode} {unseen : List NodeId}
  {pending walk : List (String × ClassNode)} {owner : String} {c : ClassNode}

theorem mem_without {ids : List NodeId} {id i : NodeId} : i ∈ without ids id ↔ i ∈ ids ∧ i ≠ id := by
  simp [without]

/-- A walk from the pending classes through those that have not been seen. -/
inductive Walks (inner : ClassNode → List ClassNode) :
    List NodeId → List (String × ClassNode) → List (String × ClassNode) → Prop where
  | done {unseen : List NodeId} : Walks inner unseen [] []
  /-- A class that has not been seen has its turn, and its inner classes become pending. -/
  | visit {unseen : List NodeId} {owner : String} {c : ClassNode}
      {rest walk : List (String × ClassNode)} (fresh : c.id ∈ unseen)
      (later : Walks inner (without unseen c.id)
        ((inner c).reverse.map (fun i => (owner ++ "/" ++ c.name, i)) ++ rest) walk) :
      Walks inner unseen ((owner, c) :: rest) ((owner ++ "/" ++ c.name, c) :: walk)
  | skip {unseen : List NodeId} {owner : String} {c : ClassNode}
      {rest walk : List (String × ClassNode)} (seen : c.id ∉ unseen)
      (later : Walks inner unseen rest walk) : Walks inner unseen ((owner, c) :: rest) walk

theorem walks_classWalk (inner : ClassNode → List ClassNode) (unseen : List NodeId)
    (pending : List (String × ClassNode)) :
    Walks inner unseen pending (classWalk inner unseen pending) := by
  induction unseen, pending using classWalk.induct inner with
  | case1 unseen =>
    rw [classWalk]
    exact .done
  | case2 unseen owner c rest fresh _ key =>
    rename_i ih
    rw [classWalk, dif_pos fresh]
    exact .visit fresh ih
  | case3 unseen owner c rest seen ih =>
    rw [classWalk, dif_neg seen]
    exact .skip seen ih

/-- What holds of the classes that a walk starts from, with the keys of their owners, and of the
inner classes of each that it holds of, holds of all classes on the walk. -/
theorem Walks.forall (h : Walks inner unseen pending walk) {P : String → ClassNode → Prop}
    (hinner : ∀ owner c, P owner c → ∀ i ∈ inner c, P (owner ++ "/" ++ c.name) i)
    (hpending : ∀ x ∈ pending, P x.1 x.2) :
    ∀ x ∈ walk, ∃ owner, P owner x.2 ∧ x.1 = owner ++ "/" ++ x.2.name := by
  induction h with
  | done => exact fun x hx => absurd hx List.not_mem_nil
  | @visit unseen owner c rest walk fresh _ ih =>
    obtain ⟨hc, hrest⟩ := List.forall_mem_cons.1 hpending
    intro x hx
    rcases List.mem_cons.1 hx with rfl | hx
    · exact ⟨owner, hc, rfl⟩
    · refine ih (fun y hy => ?_) x hx
      rcases List.mem_append.1 hy with hy | hy
      · obtain ⟨i, hi, rfl⟩ := List.mem_map.1 hy
        exact hinner owner c hc i (List.mem_reverse.1 hi)
      · exact hrest y hy
  | skip _ _ ih => exact ih (List.forall_mem_cons.1 hpending).2

/-- A walk comes to classes that have not been seen only. -/
theorem Walks.mem_unseen (h : Walks inner unseen pending walk) : ∀ x ∈ walk, x.2.id ∈ unseen := by
  induction h with
  | done => exact fun x hx => absurd hx List.not_mem_nil
  | visit fresh _ ih => exact List.forall_mem_cons.2 ⟨fresh, fun x hx => (mem_without.1 (ih x hx)).1⟩
  | skip _ _ ih => exact ih

/-- A walk comes to each class once. -/
theorem Walks.nodup (h : Walks inner unseen pending walk) : (walk.map fun x => x.2.id).Nodup := by
  induction h with
  | done => exact .nil
  | visit _ later ih =>
    rw [List.map_cons]
    refine List.nodup_cons.2 ⟨fun hmem => ?_, ih⟩
    -- what comes later had not been seen after this class
    obtain ⟨x, hx, hid⟩ := List.mem_map.1 hmem
    exact (mem_without.1 (later.mem_unseen x hx)).2 hid
  | skip _ _ ih => exact ih

/-- A class has its turn on a walk. -/
def OnWalk (walk : List (String × ClassNode)) (c : ClassNode) : Prop := ∃ x ∈ walk, x.2.id = c.id

/-- A walk comes to all classes that it starts from and to the inner classes of each that it comes
to, but for those that have been seen before. -/
theorem Walks.complete (h : Walks inner unseen pending walk) :
    (∀ x ∈ pending, x.2.id ∈ unseen → OnWalk walk x.2) ∧
      ∀ x ∈ walk, ∀ i ∈ inner x.2, i.id ∈ unseen → OnWalk walk i := by
  induction h with
  | done => exact ⟨nofun, nofun⟩
  | @visit unseen owner c rest walk fresh _ ih =>
    obtain ⟨hpending, hclosed⟩ := ih
    -- a class has its turn now, or is still unseen and has its turn later
    have now_or_later : ∀ i : ClassNode, i.id ∈ unseen →
        (i.id ∈ without unseen c.id → OnWalk walk i) →
        OnWalk ((owner ++ "/" ++ c.name, c) :: walk) i := by
      intro i hi hlater
      by_cases hid : i.id = c.id
      · exact ⟨_, List.mem_cons_self, hid.symm⟩
      · obtain ⟨x, hx, hxi⟩ := hlater (mem_without.2 ⟨hi, hid⟩)
        exact ⟨x, List.mem_cons_of_mem _ hx, hxi⟩
    constructor
    · intro x hx hunseen
      rcases List.mem_cons.1 hx with rfl | hx
      · exact ⟨_, List.mem_cons_self, rfl⟩
      · exact now_or_later x.2 hunseen (hpending x (List.mem_append_right _ hx))
    · intro x hx i hi hunseen
      rcases List.mem_cons.1 hx with rfl | hx
      · exact now_or_later i hunseen (hpending (owner ++ "/" ++ c.name, i)
          (List.mem_append_left _ (List.mem_map.2 ⟨i, List.mem_reverse.2 hi, rfl⟩)))
      · exact now_or_later i hunseen (hclosed x hx i hi)
  | skip seen _ ih =>
    obtain ⟨hpending, hclosed⟩ := ih
    refine ⟨List.forall_mem_cons.2 ⟨fun hunseen => absurd hunseen seen, hpending⟩, hclosed⟩

/-! ## The classes of a file -/

namespace Store

variable {s : Store} {f : FileRevision} {names : List String}

/-- A class of a file, or an inner class of one again and again, with the names on the way to it. -/
inductive Nests (s : Store) (f : FileRevision) : List String → ClassNode → Prop where
  | top {id : NodeId} {c : ClassNode} (mem : id ∈ f.classes.toList)
      (found : s.classes.get? id = some c) : Nests s f [c.name] c
  | inner {names : List String} {c : ClassNode} {id : NodeId} {i : ClassNode}
      (outer : Nests s f names c) (mem : id ∈ c.innerClasses.toList)
      (found : s.classes.get? id = some i) : Nests s f (names ++ [i.name]) i

theorem mem_innerClasses {i : ClassNode} :
    i ∈ s.innerClasses c ↔ ∃ id ∈ c.innerClasses.toList, s.classes.get? id = some i :=
  List.mem_filterMap

theorem mem_pending_hydrateFile {path : String} {x : String × ClassNode} :
    x ∈ (s.hydrateFile f).classes.reverse.map (fun c => (path, c.node)) ↔
      x.1 = path ∧ ∃ id ∈ f.classes.toList, s.classes.get? id = some x.2 := by
  show x ∈ (List.map s.hydrateClass _).reverse.map _ ↔ _
  simp only [List.mem_map, List.mem_reverse, List.mem_filterMap]
  constructor
  · rintro ⟨_, ⟨c, hc, rfl⟩, rfl⟩
    exact ⟨rfl, hc⟩
  · rintro ⟨rfl, hc⟩
    exact ⟨_, ⟨x.2, hc, rfl⟩, rfl⟩

/-- What is shown of the classes of a file at a path. -/
structure WalksThrough (s : Store) (path : String) (f : FileRevision)
    (walk : List (String × ClassNode)) : Prop where
  /-- No class has two turns. -/
  once : (walk.map fun x => x.2.id).Nodup
  /-- The classes that have a turn are those that lie in the file, at any depth. -/
  reached : ∀ c, c ∈ walk.map Prod.snd ↔ ∃ names, s.Nests f names c
  /-- Each class has its turn under the path of the file and the names on some way to the class. -/
  keys : ∀ x ∈ walk, ∃ names, s.Nests f names x.2 ∧ x.1 = "/".intercalate (path :: names)

theorem Nests.stored (h : s.Nests f names c) : s.classes.get? c.id = some c := by
  cases h with
  | top mem found => exact Sorted.key_of_get? found ▸ found
  | inner outer mem found => exact Sorted.key_of_get? found ▸ found

theorem intercalate_concat (path : String) (names : List String) (name : String) :
    "/".intercalate (path :: (names ++ [name])) = "/".intercalate (path :: names) ++ "/" ++ name := by
  rw [← List.cons_append, String.intercalate_append_of_ne_nil (List.cons_ne_nil _ _)
    (List.cons_ne_nil _ _), String.intercalate_singleton]

theorem walks_classesShown (s : Store) (path : String) (f : HydratedFile) :
    Walks s.innerClasses (s.classes.toList.map ClassNode.id)
      (f.classes.reverse.map fun c => (path, c.node)) (s.classesShown path f) :=
  walks_classWalk _ _ _

/-- A class is shown under the path of the file and the names on a way to the class. -/
theorem nests_of_mem_classesShown {path : String} {x : String × ClassNode}
    (hx : x ∈ s.classesShown path (s.hydrateFile f)) :
    ∃ names, s.Nests f names x.2 ∧ x.1 = "/".intercalate (path :: names) := by
  -- the owner of a class is named by the names before its own
  have howner : ∃ owner, (∃ names, owner = "/".intercalate (path :: names) ∧
      s.Nests f (names ++ [x.2.name]) x.2) ∧ x.1 = owner ++ "/" ++ x.2.name := by
    refine (s.walks_classesShown path (s.hydrateFile f)).forall (P := fun owner c => ∃ names,
      owner = "/".intercalate (path :: names) ∧ s.Nests f (names ++ [c.name]) c) ?_ ?_ x hx
    · rintro _ c ⟨names, rfl, hnests⟩ i hi
      obtain ⟨id, mem, found⟩ := mem_innerClasses.1 hi
      exact ⟨names ++ [c.name], (intercalate_concat path names c.name).symm,
        .inner hnests mem found⟩
    · intro x hx
      obtain ⟨hpath, id, mem, found⟩ := mem_pending_hydrateFile.1 hx
      exact ⟨[], by rw [hpath, String.intercalate_singleton], .top mem found⟩
  obtain ⟨_, ⟨names, rfl, hnests⟩, hkey⟩ := howner
  exact ⟨names ++ [x.2.name], hnests, hkey.trans (intercalate_concat path names x.2.name).symm⟩

/-- No class that lies in a file is left out. -/
theorem Nests.mem_classesShown (h : s.Nests f names c) (path : String) :
    c ∈ (s.classesShown path (s.hydrateFile f)).map Prod.snd := by
  -- no class is seen before the walk begins, and a class is known by its id
  have hunseen : ∀ {id : NodeId} {i : ClassNode}, s.classes.get? id = some i →
      i.id ∈ s.classes.toList.map ClassNode.id :=
    fun hi => List.mem_map.2 ⟨_, Sorted.mem_of_get? hi, rfl⟩
  have hmem : ∀ {i : ClassNode}, i ∈ s.classes →
      OnWalk (s.classesShown path (s.hydrateFile f)) i →
      i ∈ (s.classesShown path (s.hydrateFile f)).map Prod.snd := by
    rintro i hi ⟨x, hx, hid⟩
    obtain ⟨names, hnests, -⟩ := nests_of_mem_classesShown hx
    obtain rfl := Sorted.eq_of_key_eq (Sorted.mem_of_get? hnests.stored) hi hid
    exact List.mem_map.2 ⟨x, hx, rfl⟩
  obtain ⟨hpending, hclosed⟩ := (s.walks_classesShown path (s.hydrateFile f)).complete
  induction h with
  | @top id c mem found =>
    exact hmem (Sorted.mem_of_get? found) (hpending (path, c)
      (mem_pending_hydrateFile.2 ⟨rfl, id, mem, found⟩) (hunseen found))
  | @inner names c id i outer mem found ih =>
    obtain ⟨x, hx, rfl⟩ := List.mem_map.1 ih
    exact hmem (Sorted.mem_of_get? found) (hclosed x hx i
      (mem_innerClasses.2 ⟨id, mem, found⟩) (hunseen found))

/-- What is shown of a file is a walk through all classes that lie in it. -/
theorem walksThrough_classesShown (s : Store) (path : String) (f : FileRevision) :
    s.WalksThrough path f (s.classesShown path (s.hydrateFile f)) where
  once := (s.walks_classesShown path (s.hydrateFile f)).nodup
  reached c := by
    constructor
    · intro hc
      obtain ⟨x, hx, rfl⟩ := List.mem_map.1 hc
      obtain ⟨names, hnests, -⟩ := nests_of_mem_classesShown hx
      exact ⟨names, hnests⟩
    · rintro ⟨names, hc⟩
      exact hc.mem_classesShown path
  keys _ := nests_of_mem_classesShown

end Store

end Cityscape
