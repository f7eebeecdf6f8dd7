import Cityscape.Proofs.Commits

/-!
# `Files`: classes and functions come in

A file fact adds classes and functions of its own landscape. A class that is created leaves the
classes that are there alone (`Store.AddsClass`), as its members and inner classes are linked to
itself only. Lists of names with ids are passed on while the store grows; every id in them stays
that of a node of the landscape (`NamedIds.In`).
-/

namespace Cityscape

/-- Why a file fact is refused, if it is: its repository has not been announced, or has no file
with its content hash. -/
def FileFact.refusal (f : FileFact) (s : Store) : Option Fault :=
  match s.findRepository f.landscapeToken (displayName f.repositoryName) with
  | none => some (.unregistered (displayName f.repositoryName) f.landscapeToken)
  | some r =>
    if (s.filesByHash r.id f.fileHash).isEmpty then some (.noRevision f.fileHash r.name) else none

/-- The id is that of a node of a landscape in a table. -/
def Sorted.HasOwn {α : Type} {key : α → NodeId} (owner : NodeId → String) (t : String)
    (table : Sorted key) (id : NodeId) : Prop :=
  (∃ x, table.get? id = some x) ∧ owner id = t

/-- The id is that of a function of a landscape that files may have. -/
def Store.MayHold (owner : NodeId → String) (t : String) (s : Store) (id : NodeId) : Prop :=
  ∃ g, s.functions.get? id = some g ∧ owner id = t ∧ g.InFiles

/-- All ids are of a kind. -/
def NamedIds.In (P : NodeId → Prop) (ids : NamedIds) : Prop := ∀ p ∈ ids, P p.2

section

variable {α : Type} {key : α → NodeId} {owner : NodeId → String} {t : String}
  {table table' : Sorted key} {kept : α → α → Prop} {ids ids' : NamedIds} {name : String}
  {id : NodeId}

theorem Sorted.HasOwn.of_grows (h : table.HasOwn owner t id) (g : table.Grows kept table') :
    table'.HasOwn owner t id := by
  obtain ⟨⟨x, hx⟩, hown⟩ := h
  obtain ⟨x', hx', -⟩ := g _ _ hx
  exact ⟨⟨x', hx'⟩, hown⟩

theorem Store.MayHold.of_grows {s s' : Store} (h : s.MayHold owner t id) (g : s.Grows s') :
    s'.MayHold owner t id := by
  obtain ⟨f, hf, hown, hin⟩ := h
  obtain ⟨f', hf', rfl⟩ := g.functions _ _ hf
  exact ⟨f, hf', hown, hin⟩

theorem Store.MayHold.hasOwn {s : Store} (h : s.MayHold owner t id) :
    s.functions.HasOwn owner t id := by
  obtain ⟨f, hf, hown, -⟩ := h
  exact ⟨⟨f, hf⟩, hown⟩

namespace NamedIds.In

variable {P Q : NodeId → Prop}

theorem nil : NamedIds.In P [] := nofun

theorem cons (hid : P id) (h : NamedIds.In P ids) : NamedIds.In P ((name, id) :: ids) :=
  List.forall_mem_cons.2 ⟨hid, h⟩

theorem mono (h : NamedIds.In P ids) (hPQ : ∀ id, P id → Q id) : NamedIds.In Q ids :=
  fun p hp => hPQ p.2 (h p hp)

theorem of_grows (h : NamedIds.In (table.HasOwn owner t) ids) (g : table.Grows kept table') :
    NamedIds.In (table'.HasOwn owner t) ids := h.mono fun _ hid => hid.of_grows g

theorem lookup (h : NamedIds.In P ids) (hl : ids.lookup name = some id) : P id := by
  obtain ⟨l₁, l₂, hids, -⟩ := List.lookup_eq_some_iff.1 hl
  exact h (name, id) (hids ▸ List.mem_append_right _ List.mem_cons_self)

/-- A name is looked up in one list and then in another one. -/
theorem lookup_or (h : NamedIds.In P ids) (h' : NamedIds.In P ids')
    (hl : (ids.lookup name).or (ids'.lookup name) = some id) : P id := by
  rcases Option.or_eq_some_iff.1 hl with hl | ⟨-, hl⟩
  · exact h.lookup hl
  · exact h'.lookup hl

end NamedIds.In

end

namespace Store

variable {s s' s'' : Store} {class_ id : NodeId} {name : String}

/-- Files stay as they are, and so do all classes but one. -/
structure SparesClasses (s : Store) (class_ : NodeId) (s' : Store) : Prop where
  files : s'.files = s.files
  classes : ∀ x ∈ s.classes, x.id ≠ class_ → x ∈ s'.classes

theorem SparesClasses.of_eq (hf : s'.files = s.files) (hc : s'.classes = s.classes) :
    s.SparesClasses class_ s' := ⟨hf, fun _ hx _ => hc ▸ hx⟩

theorem SparesClasses.trans (h : s.SparesClasses class_ s') (h' : s'.SparesClasses class_ s'') :
    s.SparesClasses class_ s'' :=
  ⟨h'.files.trans h.files, fun x hx hne => h'.classes x (h.classes x hx hne) hne⟩

theorem SparesClasses.of_insert (c : ClassNode) (hid : c.id = class_) (hf : s'.files = s.files)
    (hc : s'.classes = s.classes.insert c) : s.SparesClasses class_ s' :=
  ⟨hf, fun _ hx hne => hc ▸ Sorted.mem_insert.2 (.inr ⟨hx, hid ▸ hne⟩)⟩

/-- A class with a name has come in; files and the classes that have been there stay as they
are. -/
structure AddsClass (s : Store) (name : String) (id : NodeId) (s' : Store) : Prop where
  fresh : s.classes.get? id = none
  files : s'.files = s.files
  classes : ∀ x ∈ s.classes, x ∈ s'.classes
  named : ∃ c, s'.classes.get? id = some c ∧ c.name = name

theorem AddsClass.spares (h : s.AddsClass name id s') : s.SparesClasses class_ s' :=
  ⟨h.files, fun x hx _ => h.classes x hx⟩

end Store

namespace Edit

variable {owner : NodeId → String} {t : String} {k : Topic} {n : Nat} {s : Store}

/-! ## Functions and classes -/

theorem runs_createFunction (h : Ready owner t n s) {f : FunctionFact} :
    Runs owner t .file (createFunction f) n s
      (fun id s' => s'.MayHold owner t id ∧
        s' = { s with nextId := s.nextId + 1, functions := s.functions.insert (f.node id) })
      fun _ => False := by
  refine Runs.allocate_change (fun id s => s.saveFunction (f.node id)) h
    (fun hn => .newFunction (.inl rfl) rfl (h.own_next hn) nofun) ?_
  rintro s' - rfl h' g hown
  have hget : (s.functions.insert (f.node ⟨s.nextId⟩)).get? ⟨s.nextId⟩ = some (f.node ⟨s.nextId⟩) :=
    Sorted.get?_insert_self _ (f.node ⟨s.nextId⟩)
  exact Runs.pure ⟨⟨f.node ⟨s.nextId⟩, hget, hown, nofun⟩, rfl⟩

theorem runs_linkMethod (h : Ready owner t n s) {class_ id : NodeId}
    (hclass : s.classes.HasOwn owner t class_)
    (hid : s.functions.HasOwn owner t id) :
    Runs owner t .file (mergeEdge .classFunction class_ id) n s
      (fun _ s' => s.SparesClasses class_ s') fun _ => False := by
  obtain ⟨⟨c, hc⟩, hown⟩ := hclass
  obtain ⟨⟨x, hx⟩, hxown⟩ := hid
  have hmem := Sorted.mem_of_get? hc
  obtain rfl := Sorted.key_of_get? hc
  obtain ⟨isNew, heq⟩ := mergeEdge_classFunction hc hx
  have fits := h.sound.fitting.classes c hmem
  refine Runs.of_step h heq (fun _ => .classNode hmem hown
    { ClassNode.Kept.rfl with functions := fun _ hy => SortedSet.mem_insert.2 (.inr hy) }
    { fits with
      functions := SortedSet.forall_mem_insert ⟨x, hx, hxown.trans hown.symm⟩ fits.functions })
    fun _ _ => .of_insert { c with functions := c.functions.insert id } rfl rfl rfl

theorem runs_linkInnerClass (h : Ready owner t n s) {class_ id : NodeId}
    (hclass : s.classes.HasOwn owner t class_)
    (hid : s.classes.HasOwn owner t id) :
    Runs owner t .file (mergeEdge .classInnerClass class_ id) n s
      (fun _ s' => s.SparesClasses class_ s') fun _ => False := by
  obtain ⟨⟨c, hc⟩, hown⟩ := hclass
  obtain ⟨⟨x, hx⟩, hxown⟩ := hid
  have hmem := Sorted.mem_of_get? hc
  obtain rfl := Sorted.key_of_get? hc
  obtain ⟨isNew, heq⟩ := mergeEdge_classInnerClass hc hx
  have fits := h.sound.fitting.classes c hmem
  refine Runs.of_step h heq (fun _ => .classNode hmem hown
    { ClassNode.Kept.rfl with innerClasses := fun _ hy => SortedSet.mem_insert.2 (.inr hy) }
    { fits with
      innerClasses := SortedSet.forall_mem_insert ⟨x, hx, hxown.trans hown.symm⟩ fits.innerClasses })
    fun _ _ => .of_insert { c with innerClasses := c.innerClasses.insert id } rfl rfl rfl

theorem runs_linkSuperClass (h : Ready owner t n s) {class_ id : NodeId}
    (hclass : s.classes.HasOwn owner t class_)
    (hid : s.classes.HasOwn owner t id) :
    Runs owner t .file (mergeEdge .classSuperClass class_ id) n s
      (fun _ s' => ∃ c, s.classes.get? class_ = some c ∧ s' = { s with
        classes := s.classes.insert { c with superClasses := c.superClasses.insert id } })
      fun _ => False := by
  obtain ⟨⟨c, hc⟩, hown⟩ := hclass
  obtain ⟨⟨x, hx⟩, hxown⟩ := hid
  have hmem := Sorted.mem_of_get? hc
  obtain rfl := Sorted.key_of_get? hc
  obtain ⟨isNew, heq⟩ := mergeEdge_classSuperClass hc hx
  have fits := h.sound.fitting.classes c hmem
  refine Runs.of_step h heq (fun _ => .classNode hmem hown
    { ClassNode.Kept.rfl with superClasses := fun _ hy => SortedSet.mem_insert.2 (.inr hy) }
    { fits with
      superClasses := SortedSet.forall_mem_insert ⟨x, hx, hxown.trans hown.symm⟩ fits.superClasses })
    fun _ _ => ⟨c, hc, rfl⟩

theorem runs_createMethods {class_ : NodeId} {fs : List FunctionFact} :
    ∀ {n : Nat} {s : Store}, Ready owner t n s → s.classes.HasOwn owner t class_ →
      Runs owner t .file (createMethods class_ fs) n s (fun _ s' => s.SparesClasses class_ s')
        fun _ => False := by
  induction fs with
  | nil =>
    intro n s h hclass
    exact Runs.pure (.of_eq rfl rfl)
  | cons f rest ih =>
    intro n s h hclass
    refine Runs.bind h (runs_createFunction h) ?_
    rintro id n₁ s₁ h₁ g₁ ⟨hid, hs₁⟩
    have hclass₁ := hclass.of_grows g₁.classes
    have hspares₁ : s.SparesClasses class_ s₁ := by
      rw [hs₁]
      exact .of_eq rfl rfl
    refine Runs.bind h₁ (runs_linkMethod h₁ hclass₁ hid.hasOwn) ?_
    intro _ n₂ s₂ h₂ g₂ hspares₂
    refine Runs.mono (ih h₂ (hclass₁.of_grows g₂.classes)) (fun _ s₃ hspares₃ => ?_) fun _ hx => hx
    exact (hspares₁.trans hspares₂).trans hspares₃

mutual

/-- A class is created with its functions and inner classes. -/
theorem runs_createClass (c : ClassFact) {n : Nat} {s : Store} (h : Ready owner t n s) :
    Runs owner t .file (createClass c) n s
      (fun id s' => s'.classes.HasOwn owner t id ∧ s.AddsClass c.name id s') fun _ => False := by
  obtain ⟨name, kind, modifiers, interfaces, annotations, enumValues, superClasses, fields,
    innerClasses, functions, metrics⟩ := c
  let c : ClassFact := ⟨name, kind, modifiers, interfaces, annotations, enumValues,
    superClasses, fields, [], functions, metrics⟩
  have hfresh : n + 1 < 2 ^ 64 → s.classes.get? ⟨s.nextId⟩ = none :=
    fun hn => h.sound.numbered.get?_next hn h.sound.numbered.classes
  have hnew : n + 1 < 2 ^ 64 → Store.saveClass { s with nextId := s.nextId + 1 }
        (c.node ⟨s.nextId⟩)
      = { s with
          nextId := s.nextId + 1
          classes := s.classes.insert (c.node ⟨s.nextId⟩) } := by
    intro hn
    unfold Store.saveClass
    rw [show Sorted.get? _ (c.node ⟨s.nextId⟩).id = none from hfresh hn]
  rw [createClass]
  refine Runs.allocate_change (fun id s => s.saveClass (c.node id)) h (fun hn => ?_) ?_
  · rw [hnew hn]
    exact .newClass rfl (h.own_next hn)
      { functions := fun x hx => absurd hx (Sorted.not_mem_empty x)
        innerClasses := fun x hx => absurd hx (Sorted.not_mem_empty x)
        superClasses := fun x hx => absurd hx (Sorted.not_mem_empty x) }
  · intro s₁ hn hs₁ h₁ g₁ hown
    rw [hnew hn] at hs₁
    have hget₁ : s₁.classes.get? ⟨s.nextId⟩ = some (c.node ⟨s.nextId⟩) := by
      rw [hs₁]
      exact Sorted.get?_insert_self _ (c.node ⟨s.nextId⟩)
    have hclass : s₁.classes.HasOwn owner t ⟨s.nextId⟩ := ⟨⟨_, hget₁⟩, hown⟩
    have hspares₁ : s.SparesClasses ⟨s.nextId⟩ s₁ := by
      rw [hs₁]
      exact .of_insert (c.node ⟨s.nextId⟩) rfl rfl rfl
    refine Runs.bind h₁ (runs_createMethods h₁ hclass) ?_
    intro _ n₂ s₂ h₂ g₂ hspares₂
    have hclass₂ := hclass.of_grows g₂.classes
    refine Runs.bind h₂ (runs_createInnerClasses innerClasses h₂ hclass₂) ?_
    intro _ n₃ s₃ h₃ g₃ hspares₃
    have hspares := (hspares₁.trans hspares₂).trans hspares₃
    obtain ⟨x, hx, hk⟩ := (g₂.trans g₃).classes _ _ hget₁
    -- the classes that have been there are not the new one
    exact Runs.pure ⟨hclass₂.of_grows g₃.classes,
      { fresh := hfresh hn
        files := hspares.files
        classes := fun x hx => hspares.classes x hx (Sorted.get?_eq_none_iff.1 (hfresh hn) x hx)
        named := ⟨x, hx, hk.name⟩ }⟩

/-- Classes are created and linked to the class around them. -/
theorem runs_createInnerClasses {outer : NodeId} (cs : List ClassFact) {n : Nat} {s : Store}
    (h : Ready owner t n s) (houter : s.classes.HasOwn owner t outer) :
    Runs owner t .file (createInnerClasses outer cs) n s (fun _ s' => s.SparesClasses outer s')
      fun _ => False := by
  match cs with
  | [] =>
    rw [createInnerClasses]
    exact Runs.pure (.of_eq rfl rfl)
  | c :: rest =>
    rw [createInnerClasses]
    refine Runs.bind h (runs_createClass c h) ?_
    rintro id n₁ s₁ h₁ g₁ ⟨hid, hadds⟩
    have houter₁ := houter.of_grows g₁.classes
    refine Runs.bind h₁ (runs_linkInnerClass h₁ houter₁ hid) ?_
    intro _ n₂ s₂ h₂ g₂ hspares₂
    refine Runs.mono (runs_createInnerClasses rest h₂ (houter₁.of_grows g₂.classes))
      (fun _ s₃ hspares₃ => ?_) fun _ hx => hx
    exact (hadds.spares.trans hspares₂).trans hspares₃

end

/-! ## Links of a file -/

theorem runs_linkClass (h : Ready owner t n s) {file id : NodeId}
    (hfile : s.files.HasOwn owner t file) (hid : s.classes.HasOwn owner t id) :
    Runs owner t .file (mergeEdge .fileClass file id) n s
      (fun _ s' => ∃ f, s.files.get? file = some f ∧ s' = { s with
        files := s.files.insert { f with classes := f.classes.insert id } })
      fun _ => False := by
  obtain ⟨⟨f, hf⟩, hown⟩ := hfile
  obtain ⟨⟨x, hx⟩, hxown⟩ := hid
  have hmem := Sorted.mem_of_get? hf
  obtain rfl := Sorted.key_of_get? hf
  obtain ⟨isNew, heq⟩ := mergeEdge_fileClass hf hx
  have fits := h.sound.fitting.files f hmem
  refine Runs.of_step h heq (fun _ => .file nofun hmem hown
    { FileRevision.Kept.rfl with classes := fun _ hy => SortedSet.mem_insert.2 (.inr hy) }
    { fits with
      classes := SortedSet.forall_mem_insert ⟨x, hx, hxown.trans hown.symm⟩ fits.classes }
    (fun _ => rfl) nofun) fun _ _ => ⟨f, hf, rfl⟩

theorem runs_linkFunction (h : Ready owner t n s) (topic : k ≠ .repository) {file id : NodeId}
    (hfile : s.files.HasOwn owner t file) (hid : s.MayHold owner t id) :
    Runs owner t k (mergeEdge .fileFunction file id) n s
      (fun _ s' => ∃ f, s.files.get? file = some f ∧ s' = { s with
        files := s.files.insert { f with functions := f.functions.insert id } })
      fun _ => False := by
  obtain ⟨⟨f, hf⟩, hown⟩ := hfile
  obtain ⟨x, hx, hxown, hin⟩ := hid
  have hmem := Sorted.mem_of_get? hf
  obtain rfl := Sorted.key_of_get? hf
  obtain ⟨isNew, heq⟩ := mergeEdge_fileFunction hf hx
  have fits := h.sound.fitting.files f hmem
  refine Runs.of_step h heq (fun _ => .file topic hmem hown
    { FileRevision.Kept.rfl with functions := fun _ hy => SortedSet.mem_insert.2 (.inr hy) }
    { fits with
      functions := SortedSet.forall_mem_insert ⟨x, hx, hxown.trans hown.symm⟩ fits.functions
      inFiles := SortedSet.forall_mem_insert
        (fun y hy => Option.some.inj (hx.symm.trans hy) ▸ hin) fits.inFiles }
    (fun _ => rfl) fun _ => rfl) fun _ _ => ⟨f, hf, rfl⟩

end Edit
end Cityscape
