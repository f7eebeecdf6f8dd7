import Cityscape.Proofs.Edges
import Cityscape.Proofs.Files
import Cityscape.Proofs.Names

/-!
# `Descriptions`: what a file fact does to the revisions that it describes

A revision keeps its classes and functions, and gets one more for each name of the fact that it has
not had (`FileFact.Describes`). New functions carry the data of the first fact with their name. The
copies of the revisions have been read before all the changes, but nothing else changes a revision
before its turn comes, so no copy is outdated (`Edit.runs_describeFiles`). Beside the revisions that
are described only classes change, and these gain super classes at most.
-/

namespace Cityscape

/-- The class may have gained super classes, and nothing else of it has changed. -/
structure ClassNode.Gains (c c' : ClassNode) : Prop where
  same : c' = { c with superClasses := c'.superClasses }
  superClasses : ∀ x ∈ c.superClasses, x ∈ c'.superClasses

namespace ClassNode.Gains

variable {c c' c'' : ClassNode}

theorem rfl : c.Gains c := ⟨.refl _, fun _ hx => hx⟩

theorem trans (h : c.Gains c') (h' : c'.Gains c'') : c.Gains c'' where
  same := by
    rw [h'.same, h.same]
  superClasses x hx := h'.superClasses x (h.superClasses x hx)

theorem name (h : c.Gains c') : c'.name = c.name := by rw [h.same]

end ClassNode.Gains

/-- One more element has been attached before the others. -/
theorem SortedSet.mem_attached_cons {ids ids' : SortedSet NodeId} {find : String → Option NodeId}
    {x : String} {names : List String} {id : NodeId} (hx : find x = some id)
    (h : ∀ i, i ∈ ids' ↔ i ∈ ids.insert id ∨ ∃ y ∈ names, find y = some i) (i : NodeId) :
    i ∈ ids' ↔ i ∈ ids ∨ ∃ y ∈ x :: names, find y = some i := by
  simp only [h, SortedSet.mem_insert, List.mem_cons, exists_eq_or_imp, hx, Option.some.injEq]
  tauto

namespace Store

variable {s s' s'' : Store}

/-- Files stay as they are, and classes gain super classes at most. -/
structure GainsSupers (s s' : Store) : Prop where
  files : s'.files = s.files
  classes : s.classes.Grows ClassNode.Gains s'.classes

theorem GainsSupers.rfl : s.GainsSupers s := ⟨.refl _, .of_eq (fun _ => .rfl) (.refl _)⟩

theorem GainsSupers.trans (h : s.GainsSupers s') (h' : s'.GainsSupers s'') : s.GainsSupers s'' :=
  ⟨h'.files.trans h.files, h.classes.trans (fun _ _ _ => .trans) h'.classes⟩

/-- Super classes stay. -/
theorem Grows.hasEdge_super (g : s.Grows s') {class_ super : NodeId}
    (h : s.HasEdge .classSuperClass class_ super) : s'.HasEdge .classSuperClass class_ super := by
  obtain ⟨c, hc, hmem⟩ := Sorted.exists_of_mem_edgesAt h
  obtain ⟨c', hc', hk⟩ := g.classes _ _ hc
  exact Sorted.mem_edgesAt_of_get? hc' (hk.superClasses _ hmem)

/-- Classes have been attached to a file: one for each name of the facts, which is found or
created. -/
structure AttachesClasses (s : Store) (file : NodeId) (existing created : NamedIds)
    (facts : List ClassFact) (before ids created' : NamedIds) (s' : Store) : Prop where
  provides : NamedIds.Provides ClassFact.name
    (fun c id => ∃ x, s'.classes.get? id = some x ∧ x.name = c.name) existing created facts created'
  lookup : ∀ x, ids.lookup x = if x ∈ facts.map ClassFact.name then existing.find created' x
    else before.lookup x
  revision : ∃ f classes, s.files.get? file = some f ∧
    s'.files = s.files.insert { f with classes } ∧
    ∀ id, id ∈ classes ↔ id ∈ f.classes ∨
      ∃ x ∈ facts.map ClassFact.name, existing.find created' x = some id
  classes : ∀ x ∈ s.classes, x ∈ s'.classes

/-- Functions have been attached to a file: one for each name of the facts, which is found or
created. -/
structure AttachesFunctions (s : Store) (file : NodeId) (existing created : NamedIds)
    (facts : List FunctionFact) (created' : NamedIds) (s' : Store) : Prop where
  provides : NamedIds.Provides FunctionFact.name
    (fun f id => s'.functions.get? id = some (f.node id)) existing created facts created'
  revision : ∃ f functions, s.files.get? file = some f ∧
    s'.files = s.files.insert { f with functions } ∧
    ∀ id, id ∈ functions ↔ id ∈ f.functions ∨
      ∃ x ∈ facts.map FunctionFact.name, existing.find created' x = some id
  classes : s'.classes = s.classes

/-- One class has been attached, and then the others. -/
theorem AttachesClasses.cons {s₁ s₂ : Store} {file id : NodeId}
    {existing created created₁ : NamedIds}
    {c : ClassFact} {rest : List ClassFact} {before ids created' : NamedIds}
    (hfiles : s₁.files = s.files) (hclasses : ∀ x ∈ s.classes, x ∈ s₁.classes)
    (hlink : ∃ f, s₁.files.get? file = some f ∧ s₂ = { s₁ with
      files := s₁.files.insert { f with classes := f.classes.insert id } })
    (h : s₂.AttachesClasses file existing created₁ rest ((c.name, id) :: before) ids created' s')
    (hfind : existing.find created' c.name = some id)
    (hprovides : NamedIds.Provides ClassFact.name
      (fun c id => ∃ x, s'.classes.get? id = some x ∧ x.name = c.name) existing created (c :: rest)
      created') :
    s.AttachesClasses file existing created (c :: rest) before ids created' s' := by
  obtain ⟨f, hf, rfl⟩ := hlink
  obtain ⟨f', classes, hf', hfiles', hmem⟩ := h.revision
  obtain rfl := Sorted.key_of_get? hf
  obtain rfl := Option.some.inj ((Sorted.get?_insert_self s₁.files
    { f with classes := f.classes.insert id }).symm.trans hf')
  refine ⟨hprovides, fun x => ?_, ⟨f, classes, hfiles ▸ hf, ?_, ?_⟩,
    fun x hx => h.classes x (hclasses x hx)⟩
  · rw [h.lookup, NamedIds.lookup_cons, List.map_cons]
    by_cases hx : x = c.name
    · subst hx
      simp [hfind]
    · simp [hx]
  · rw [hfiles', ← hfiles]
    exact Sorted.insert_insert rfl
  · exact SortedSet.mem_attached_cons hfind hmem

/-- One function has been attached, and then the others. -/
theorem AttachesFunctions.cons {s₁ s₂ : Store} {file id : NodeId}
    {existing created created₁ : NamedIds} {f : FunctionFact} {rest : List FunctionFact}
    {created' : NamedIds} (hfiles : s₁.files = s.files) (hclasses : s₁.classes = s.classes)
    (hlink : ∃ f, s₁.files.get? file = some f ∧ s₂ = { s₁ with
      files := s₁.files.insert { f with functions := f.functions.insert id } })
    (h : s₂.AttachesFunctions file existing created₁ rest created' s')
    (hfind : existing.find created' f.name = some id)
    (hprovides : NamedIds.Provides FunctionFact.name
      (fun f id => s'.functions.get? id = some (f.node id)) existing created (f :: rest) created') :
    s.AttachesFunctions file existing created (f :: rest) created' s' := by
  obtain ⟨x, hx, rfl⟩ := hlink
  obtain ⟨x', functions, hx', hfiles', hmem⟩ := h.revision
  obtain rfl := Sorted.key_of_get? hx
  obtain rfl := Option.some.inj ((Sorted.get?_insert_self s₁.files
    { x with functions := x.functions.insert id }).symm.trans hx')
  refine ⟨hprovides, ⟨x, functions, hfiles ▸ hx, ?_, ?_⟩, h.classes.trans hclasses⟩
  · rw [hfiles', ← hfiles]
    exact Sorted.insert_insert rfl
  · exact SortedSet.mem_attached_cons hfind hmem

end Store

namespace Edit

variable {owner : NodeId → String} {t : String} {k : Topic} {n : Nat} {s : Store}

/-! ## Classes -/

theorem runs_attachClasses {file : NodeId} {existing : NamedIds} {cs : List ClassFact} :
    ∀ {ids created : NamedIds} {n : Nat} {s : Store}, Ready owner t n s →
      s.files.HasOwn owner t file → NamedIds.In (s.classes.HasOwn owner t) existing →
      NamedIds.In (s.classes.HasOwn owner t) ids → NamedIds.In (s.classes.HasOwn owner t) created →
      Runs owner t .file (attachClasses file existing cs ids created) n s
        (fun p s' => (NamedIds.In (s'.classes.HasOwn owner t) p.1 ∧
            NamedIds.In (s'.classes.HasOwn owner t) p.2) ∧
          s.AttachesClasses file existing created cs ids p.1 p.2 s')
        fun _ => False := by
  induction cs with
  | nil =>
    intro ids created n s h hfile hexisting hids hcreated
    obtain ⟨⟨f, hf⟩, -⟩ := hfile
    refine Runs.pure ⟨⟨hids, hcreated⟩, .nil, fun x => by simp, ⟨f, f.classes, hf, ?_, by simp⟩,
      fun _ hx => hx⟩
    rw [Sorted.insert_eq_self (Sorted.mem_of_get? hf)]
  | cons c rest ih =>
    intro ids created n s h hfile hexisting hids hcreated
    rw [attachClasses]
    cases hl : (existing.lookup c.name).or (created.lookup c.name) with
    | some id =>
      have hid := hexisting.lookup_or hcreated hl
      refine Runs.bind h (runs_linkClass h hfile hid) ?_
      rintro _ n₁ s₁ h₁ g₁ hlink
      refine Runs.imp h₁ (ih h₁ (hfile.of_grows g₁.files) (hexisting.of_grows g₁.classes)
        (.cons (hid.of_grows g₁.classes) (hids.of_grows g₁.classes))
        (hcreated.of_grows g₁.classes)) ?_
      rintro p n₂ s₂ h₂ g₂ ⟨hown, hattaches⟩
      exact ⟨hown, .cons rfl (fun _ hx => hx) hlink hattaches (hattaches.provides.find_of_some hl)
        (hattaches.provides.found hl)⟩
    | none =>
      refine Runs.bind h (runs_createClass c h) ?_
      rintro id n₁ s₁ h₁ g₁ ⟨hid, hadds⟩
      have hfile₁ := hfile.of_grows g₁.files
      refine Runs.bind h₁ (runs_linkClass h₁ hfile₁ hid) ?_
      rintro _ n₂ s₂ h₂ g₂ hlink
      have g := g₁.trans g₂
      have hid₂ := hid.of_grows g₂.classes
      refine Runs.imp h₂ (ih h₂ (hfile₁.of_grows g₂.files) (hexisting.of_grows g.classes)
        (.cons hid₂ (hids.of_grows g.classes)) (.cons hid₂ (hcreated.of_grows g.classes))) ?_
      rintro p n₃ s₃ h₃ g₃ ⟨hown, hattaches⟩
      obtain ⟨x, hx, hname⟩ := hadds.named
      obtain ⟨x', hx', hk⟩ := (g₂.trans g₃).classes _ _ hx
      exact ⟨hown, .cons hadds.files hadds.classes hlink hattaches
        (hattaches.provides.find_created hl)
        (hattaches.provides.create hl ⟨x', hx', hk.name.trans hname⟩)⟩

theorem runs_linkSuperClasses {ids : NamedIds} {class_ : NodeId} {names : List String} :
    ∀ {n : Nat} {s : Store}, Ready owner t n s → NamedIds.In (s.classes.HasOwn owner t) ids →
      s.classes.HasOwn owner t class_ →
      Runs owner t .file (linkSuperClasses ids class_ names) n s
        (fun _ s' => s.GainsSupers s' ∧ ∀ x ∈ names, ∀ super, ids.lookup x = some super →
          super ≠ class_ → s'.HasEdge .classSuperClass class_ super) fun _ => False := by
  induction names with
  | nil =>
    intro n s h hids hclass
    exact Runs.pure ⟨.rfl, nofun⟩
  | cons name rest ih =>
    intro n s h hids hclass
    rw [linkSuperClasses]
    cases hl : ids.lookup name with
    | none =>
      refine Runs.mono (ih h hids hclass) (fun _ s' ⟨hgains, hedges⟩ => ?_) fun _ hx => hx
      refine ⟨hgains, List.forall_mem_cons.2 ⟨fun super hsuper => ?_, hedges⟩⟩
      rw [hl] at hsuper
      cases hsuper
    | some super =>
      by_cases hne : super ≠ class_
      · simp only [hne, ne_eq, not_false_eq_true, if_true]
        refine Runs.bind h (runs_linkSuperClass h hclass (hids.lookup hl)) ?_
        rintro _ n₁ s₁ h₁ g₁ ⟨c, hc, hs₁⟩
        refine Runs.imp h₁ (ih h₁ (hids.of_grows g₁.classes) (hclass.of_grows g₁.classes)) ?_
        rintro _ n₂ s₂ h₂ g₂ ⟨hgains, hedges⟩
        obtain rfl := Sorted.key_of_get? hc
        have hgains₁ : s.GainsSupers s₁ := by
          rw [hs₁]
          exact ⟨rfl, .insert_kept (fun _ => .rfl) (Sorted.mem_of_get? hc) rfl
            ⟨rfl, fun _ hx => SortedSet.mem_insert.2 (.inr hx)⟩⟩
        have hedge : s₁.HasEdge .classSuperClass c.id super := by
          rw [hs₁]
          exact Sorted.mem_edgesAt_of_get?
            (Sorted.get?_insert_self s.classes
              { c with superClasses := c.superClasses.insert super })
            (SortedSet.mem_insert.2 (.inl rfl))
        refine ⟨hgains₁.trans hgains, List.forall_mem_cons.2 ⟨fun super' hsuper' _ => ?_, hedges⟩⟩
        obtain rfl := Option.some.inj (hl.symm.trans hsuper')
        exact g₂.hasEdge_super hedge
      · simp only [hne, if_false]
        refine Runs.mono (ih h hids hclass) (fun _ s' ⟨hgains, hedges⟩ => ?_) fun _ hx => hx
        refine ⟨hgains, List.forall_mem_cons.2 ⟨fun super' hsuper' hne' => ?_, hedges⟩⟩
        obtain rfl := Option.some.inj (hl.symm.trans hsuper')
        exact absurd hne' hne

theorem runs_linkAllSuperClasses {ids : NamedIds} {cs : List ClassFact} :
    ∀ {n : Nat} {s : Store}, Ready owner t n s → NamedIds.In (s.classes.HasOwn owner t) ids →
      Runs owner t .file (linkAllSuperClasses ids cs) n s
        (fun _ s' => s.GainsSupers s' ∧ ∀ c ∈ cs, ∀ id, ids.lookup c.name = some id →
          ∀ x ∈ c.superClasses, ∀ super, ids.lookup x = some super → super ≠ id →
            s'.HasEdge .classSuperClass id super) fun _ => False := by
  induction cs with
  | nil =>
    intro n s h hids
    exact Runs.pure ⟨.rfl, nofun⟩
  | cons c rest ih =>
    intro n s h hids
    rw [linkAllSuperClasses]
    cases hl : ids.lookup c.name with
    | none =>
      refine Runs.mono (ih h hids) (fun _ s' ⟨hgains, hedges⟩ => ?_) fun _ hx => hx
      refine ⟨hgains, List.forall_mem_cons.2 ⟨fun id hid => ?_, hedges⟩⟩
      rw [hl] at hid
      cases hid
    | some id =>
      refine Runs.bind h (runs_linkSuperClasses h hids (hids.lookup hl)) ?_
      rintro _ n₁ s₁ h₁ g₁ ⟨hgains₁, hedges₁⟩
      refine Runs.imp h₁ (ih h₁ (hids.of_grows g₁.classes)) ?_
      rintro _ n₂ s₂ h₂ g₂ ⟨hgains, hedges⟩
      refine ⟨hgains₁.trans hgains,
        List.forall_mem_cons.2 ⟨fun id' hid' x hx super hsuper hne => ?_, hedges⟩⟩
      obtain rfl := Option.some.inj (hl.symm.trans hid')
      exact g₂.hasEdge_super (hedges₁ x hx super hsuper hne)

/-! ## Functions -/

theorem runs_attachFunctions {file : NodeId} {existing : NamedIds} {fs : List FunctionFact} :
    ∀ {created : NamedIds} {n : Nat} {s : Store}, Ready owner t n s →
      s.files.HasOwn owner t file → NamedIds.In (s.MayHold owner t) existing →
      NamedIds.In (s.MayHold owner t) created →
      Runs owner t .file (attachFunctions file existing fs created) n s
        (fun created' s' => NamedIds.In (s'.MayHold owner t) created' ∧
          s.AttachesFunctions file existing created fs created' s') fun _ => False := by
  induction fs with
  | nil =>
    intro created n s h hfile hexisting hcreated
    obtain ⟨⟨f, hf⟩, -⟩ := hfile
    refine Runs.pure ⟨hcreated, .nil, ⟨f, f.functions, hf, ?_, by simp⟩, rfl⟩
    rw [Sorted.insert_eq_self (Sorted.mem_of_get? hf)]
  | cons f rest ih =>
    intro created n s h hfile hexisting hcreated
    rw [attachFunctions]
    cases hl : (existing.lookup f.name).or (created.lookup f.name) with
    | some id =>
      refine Runs.bind h (runs_linkFunction h (by simp) hfile (hexisting.lookup_or hcreated hl)) ?_
      rintro _ n₁ s₁ h₁ g₁ hlink
      refine Runs.imp h₁ (ih h₁ (hfile.of_grows g₁.files)
        (hexisting.mono fun _ hid => hid.of_grows g₁) (hcreated.mono fun _ hid => hid.of_grows g₁)) ?_
      rintro created' n₂ s₂ h₂ g₂ ⟨hown, hattaches⟩
      exact ⟨hown, .cons rfl rfl hlink hattaches (hattaches.provides.find_of_some hl)
        (hattaches.provides.found hl)⟩
    | none =>
      refine Runs.bind h (runs_createFunction h) ?_
      rintro id n₁ s₁ h₁ g₁ ⟨hid, hs₁⟩
      have hfile₁ := hfile.of_grows g₁.files
      refine Runs.bind h₁ (runs_linkFunction h₁ (by simp) hfile₁ hid) ?_
      rintro _ n₂ s₂ h₂ g₂ hlink
      have g := g₁.trans g₂
      refine Runs.imp h₂ (ih h₂ (hfile₁.of_grows g₂.files)
        (hexisting.mono fun _ hid => hid.of_grows g)
        (.cons (hid.of_grows g₂) (hcreated.mono fun _ hid => hid.of_grows g))) ?_
      rintro created' n₃ s₃ h₃ g₃ ⟨hown, hattaches⟩
      have hstored : s₁.functions.get? id = some (f.node id) := by
        rw [hs₁]
        exact Sorted.get?_insert_self _ (f.node id)
      obtain ⟨_, hstored', rfl⟩ := (g₂.trans g₃).functions _ _ hstored
      exact ⟨hown, .cons (by rw [hs₁]) (by rw [hs₁]) hlink hattaches
        (hattaches.provides.find_created hl) (hattaches.provides.create hl hstored')⟩

end Edit

/-! ## Revisions -/

namespace FileFact

open Edit

/-- A revision as a fact has described it. It has kept its classes and functions, and has got one
more for each name of the fact that it has not had. -/
structure Describes (fact : FileFact) (s : Store) (file : FileRevision) (s' : Store)
    (file' : FileRevision) : Prop where
  stored : s'.files.get? file.id = some file'
  properties : file' = described fact
    { file with classes := file'.classes, functions := file'.functions }
  classNames : ∀ x, (s'.classes.named ClassNode.name file'.classes x).isSome ↔
    (s.classes.named ClassNode.name file.classes x).isSome ∨ x ∈ fact.classes.map ClassFact.name
  superClasses : ∀ c ∈ fact.classes, ∀ x ∈ c.superClasses, x ∈ fact.classes.map ClassFact.name →
    ∀ id super, s'.classes.named ClassNode.name file'.classes c.name = some id →
      s'.classes.named ClassNode.name file'.classes x = some super → super ≠ id →
        s'.HasEdge .classSuperClass id super
  oldFunction : ∀ x id, s.functions.named FunctionNode.name file.functions x = some id →
    s'.functions.named FunctionNode.name file'.functions x = some id
  newFunction : ∀ x f, s.functions.named FunctionNode.name file.functions x = none →
    (fact.functions.find? fun f => f.name = x) = some f →
      ∃ id, s'.functions.named FunctionNode.name file'.functions x = some id ∧
        s'.functions.get? id = some (f.node id)
  noFunction : ∀ x, s.functions.named FunctionNode.name file.functions x = none →
    (fact.functions.find? fun f => f.name = x) = none →
      s'.functions.named FunctionNode.name file'.functions x = none

/-- Classes and functions that have been created from a fact. -/
structure Created (fact : FileFact) (owner : NodeId → String) (s : Store)
    (classes functions : NamedIds) : Prop where
  ownClasses : NamedIds.In (s.classes.HasOwn owner fact.landscapeToken) classes
  ownFunctions : NamedIds.In (s.MayHold owner fact.landscapeToken) functions
  classes : ∀ x id, classes.lookup x = some id → ∃ c, s.classes.get? id = some c ∧ c.name = x
  functions : ∀ x id, functions.lookup x = some id →
    ∃ f, (fact.functions.find? fun f => f.name = x) = some f ∧
      s.functions.get? id = some (f.node id)

variable {fact : FileFact} {owner : NodeId → String} {n : Nat} {s s' s'' : Store}
  {file file' : FileRevision} {classes functions : NamedIds}

theorem Created.nil : fact.Created owner s [] [] := ⟨.nil, .nil, nofun, nofun⟩

theorem Created.of_grows (h : fact.Created owner s classes functions) (g : s.Grows s') :
    fact.Created owner s' classes functions where
  ownClasses := h.ownClasses.of_grows g.classes
  ownFunctions := h.ownFunctions.mono fun _ hid => hid.of_grows g
  classes x id hx := by
    obtain ⟨c, hc, hname⟩ := h.classes x id hx
    obtain ⟨c', hc', hk⟩ := g.classes _ _ hc
    exact ⟨c', hc', hk.name.trans hname⟩
  functions x id hx := by
    obtain ⟨f, hf, hstored⟩ := h.functions x id hx
    obtain ⟨_, hstored', rfl⟩ := g.functions _ _ hstored
    exact ⟨f, hf, hstored'⟩

/-- What has been created for a revision has been created from the fact. -/
theorem Created.attach (h : fact.Created owner s classes functions) {existing existing' : NamedIds}
    {classes' functions' : NamedIds}
    (hown : NamedIds.In (s.classes.HasOwn owner fact.landscapeToken) classes')
    (hown' : NamedIds.In (s.MayHold owner fact.landscapeToken) functions')
    (hclasses : NamedIds.Provides ClassFact.name
      (fun c id => ∃ x, s.classes.get? id = some x ∧ x.name = c.name) existing classes fact.classes
      classes')
    (hfunctions : NamedIds.Provides FunctionFact.name
      (fun f id => s.functions.get? id = some (f.node id)) existing' functions fact.functions
      functions') :
    fact.Created owner s classes' functions' where
  ownClasses := hown
  ownFunctions := hown'
  classes x id hx := by
    rcases hclasses.new x id hx with hold | ⟨-, c, hc, y, hy, hname⟩
    · exact h.classes x id hold
    · exact ⟨y, hy, hname.trans (by simpa using List.find?_some hc)⟩
  functions x id hx := by
    rcases hfunctions.new x id hx with hold | ⟨-, f, hf, hstored⟩
    · exact h.functions x id hold
    · exact ⟨f, hf, hstored⟩

/-- The classes and functions of a revision stay those of their names. -/
theorem Describes.of_grows (h : fact.Describes s file s' file') (hs' : s'.Sound owner n)
    (g : s'.Grows s'') (hstored : s''.files.get? file.id = some file') :
    fact.Describes s file s'' file' := by
  have fits := hs'.fitting.files file' (Sorted.mem_of_get? h.stored)
  have hclasses := fun x => Sorted.named_of_grows g.classes (fun _ _ hk => hk.name)
    (fun id hid => (fits.classes id hid).imp fun _ hx => hx.1) x
  have hfunctions := fun x => Sorted.named_of_grows g.functions
    (fun _ _ hk => congrArg FunctionNode.name hk.symm)
    (fun id hid => (fits.functions id hid).imp fun _ hx => hx.1) x
  constructor
  case stored => exact hstored
  case properties => exact h.properties
  case classNames =>
    intro x
    rw [hclasses]
    exact h.classNames x
  case superClasses =>
    intro c hc x hx hname id super hid hsuper hne
    rw [hclasses] at hid hsuper
    exact g.hasEdge_super (h.superClasses c hc x hx hname id super hid hsuper hne)
  case oldFunction =>
    intro x id hid
    rw [hfunctions]
    exact h.oldFunction x id hid
  case newFunction =>
    intro x f hnone hf
    obtain ⟨id, hid, hdata⟩ := h.newFunction x f hnone hf
    obtain ⟨_, hdata', rfl⟩ := g.functions _ _ hdata
    exact ⟨id, (hfunctions x).trans hid, hdata'⟩
  case noFunction =>
    intro x hnone hf
    rw [hfunctions]
    exact h.noFunction x hnone hf

/-- What comes in before a revision is described does not matter to it. -/
theorem Describes.of_earlier (h : fact.Describes s' file s'' file') (hs : s.Sound owner n)
    (g : s.Grows s') (hfile : file ∈ s.files) : fact.Describes s file s'' file' := by
  have fits := hs.fitting.files file hfile
  have hclasses := fun x => Sorted.named_of_grows g.classes (fun _ _ hk => hk.name)
    (fun id hid => (fits.classes id hid).imp fun _ hx => hx.1) x
  have hfunctions := fun x => Sorted.named_of_grows g.functions
    (fun _ _ hk => congrArg FunctionNode.name hk.symm)
    (fun id hid => (fits.functions id hid).imp fun _ hx => hx.1) x
  exact
    { h with
      classNames := fun x => by rw [← hclasses]; exact h.classNames x
      oldFunction := fun x id hid => h.oldFunction x id ((hfunctions x).trans hid)
      newFunction := fun x f hnone => h.newFunction x f ((hfunctions x).trans hnone)
      noFunction := fun x hnone => h.noFunction x ((hfunctions x).trans hnone) }

/-- A revision has been described when classes and functions have been attached to it, the classes
have been linked, and its properties have been saved. -/
theorem describes_of_parts (hs : s.Sound owner n) (hfile : file ∈ s.files) (g : s.Grows s')
    {existing existing' classes' functions' ids : NamedIds} {cs fs : SortedSet NodeId}
    (hexisting : ∀ x, existing.lookup x = s.classes.named ClassNode.name file.classes x)
    (hexisting' : ∀ x, existing'.lookup x = s.functions.named FunctionNode.name file.functions x)
    (hstored : s'.files.get? file.id
      = some (described fact { file with classes := cs, functions := fs }))
    (hcreated : fact.Created owner s' classes' functions')
    (hclasses : ∀ c ∈ fact.classes, (existing.find classes' c.name).isSome)
    (hfunctions : ∀ f ∈ fact.functions, (existing'.find functions' f.name).isSome)
    (hcs : ∀ id, id ∈ cs ↔ id ∈ file.classes ∨
      ∃ x ∈ fact.classes.map ClassFact.name, existing.find classes' x = some id)
    (hfs : ∀ id, id ∈ fs ↔ id ∈ file.functions ∨
      ∃ x ∈ fact.functions.map FunctionFact.name, existing'.find functions' x = some id)
    (hlookup : ∀ x ∈ fact.classes.map ClassFact.name, ids.lookup x = existing.find classes' x)
    (hedges : ∀ c ∈ fact.classes, ∀ id, ids.lookup c.name = some id → ∀ x ∈ c.superClasses,
      ∀ super, ids.lookup x = some super → super ≠ id → s'.HasEdge .classSuperClass id super) :
    fact.Describes s file s' (described fact { file with classes := cs, functions := fs }) := by
  have fits := hs.fitting.files file hfile
  have hnamed : ∀ x, s'.classes.named ClassNode.name cs x
      = if x ∈ fact.classes.map ClassFact.name then existing.find classes' x
        else existing.lookup x :=
    Sorted.named_attached g.classes (fun _ _ hk => hk.name)
      (fun id hid => (fits.classes id hid).imp fun _ hx => hx.1) hexisting hcreated.classes hcs
  have hnamed' : ∀ x, s'.functions.named FunctionNode.name fs x
      = if x ∈ fact.functions.map FunctionFact.name then existing'.find functions' x
        else existing'.lookup x := by
    refine Sorted.named_attached g.functions (fun _ _ hk => congrArg FunctionNode.name hk.symm)
      (fun id hid => (fits.functions id hid).imp fun _ hx => hx.1) hexisting'
      (fun x id hx => ?_) hfs
    obtain ⟨f, hf, hdata⟩ := hcreated.functions x id hx
    exact ⟨f.node id, hdata, show f.name = x by simpa using List.find?_some hf⟩
  constructor
  case stored => exact hstored
  case properties => rfl
  case classNames =>
    intro x
    show (s'.classes.named ClassNode.name cs x).isSome ↔ _
    rw [hnamed, ← hexisting]
    by_cases hx : x ∈ fact.classes.map ClassFact.name
    · obtain ⟨c, hc, rfl⟩ := List.mem_map.1 hx
      rw [if_pos hx]
      exact iff_of_true (hclasses c hc) (.inr hx)
    · rw [if_neg hx]
      exact (or_iff_left hx).symm
  case superClasses =>
    intro c hc x hx hname id super hid hsuper hne
    have hcname : c.name ∈ fact.classes.map ClassFact.name := List.mem_map_of_mem hc
    have hid' := (hnamed c.name).symm.trans hid
    have hsuper' := (hnamed x).symm.trans hsuper
    rw [if_pos hcname, ← hlookup _ hcname] at hid'
    rw [if_pos hname, ← hlookup _ hname] at hsuper'
    exact hedges c hc id hid' x hx super hsuper' hne
  case oldFunction =>
    intro x id hid
    show s'.functions.named FunctionNode.name fs x = some id
    have hold := (hexisting' x).trans hid
    rw [hnamed', hold]
    unfold NamedIds.find
    rw [hold, Option.some_or, ite_self]
  case newFunction =>
    intro x f hnone hf
    have hmem := List.mem_of_find?_eq_some hf
    obtain rfl : f.name = x := by simpa using List.find?_some hf
    obtain ⟨id, hid⟩ := Option.isSome_iff_exists.1 (hfunctions f hmem)
    have hlook := hid
    unfold NamedIds.find at hlook
    rw [hexisting', hnone, Option.none_or] at hlook
    obtain ⟨f', hf', hdata⟩ := hcreated.functions f.name id hlook
    obtain rfl := Option.some.inj (hf.symm.trans hf')
    refine ⟨id, (hnamed' f.name).trans ?_, hdata⟩
    rw [if_pos (List.mem_map_of_mem hmem), hid]
  case noFunction =>
    intro x hnone hf
    have hx : x ∉ fact.functions.map FunctionFact.name := by
      rintro hx
      obtain ⟨f, hmem, rfl⟩ := List.mem_map.1 hx
      exact List.find?_eq_none.1 hf f hmem (by simp)
    refine (hnamed' x).trans ?_
    rw [if_neg hx, hexisting', hnone]

/-- The properties that a fact gives are those that it has given. -/
theorem described_described (fact : FileFact) (file : FileRevision) :
    described fact (described fact file) = described fact file := by
  have himports : (file.importNames.insertMany fact.importNames).insertMany fact.importNames
      = file.importNames.insertMany fact.importNames :=
    Sorted.insertMany_eq_self fun x hx => SortedSet.mem_insertMany.2 (.inr hx)
  have hmetrics : (file.metrics.insertMany fact.metrics.toList).insertMany fact.metrics.toList
      = file.metrics.insertMany fact.metrics.toList :=
    Sorted.insertMany_eq_self fun x hx => Sorted.mem_insertMany_of_mem_list
      (fun _ hy _ hz => Sorted.eq_of_key_eq hy hz) hx
  unfold described
  rw [himports, hmetrics]

/-- Classes and functions have been attached to a stored revision since its copy was read. They
stay when the copy is saved with the properties of a fact. -/
theorem saveFile_described {cs fs : SortedSet NodeId}
    (hget : s.files.get? file.id = some { file with classes := cs, functions := fs })
    (hcs : ∀ id ∈ file.classes, id ∈ cs) (hfs : ∀ id ∈ file.functions, id ∈ fs) :
    s.saveFile (described fact file) = { s with
      files := s.files.insert (described fact { file with classes := cs, functions := fs }) } := by
  have himports : (described fact file).importNames.union file.importNames
      = (described fact file).importNames :=
    SortedSet.union_eq_left fun _ hx => SortedSet.mem_insertMany.2 (.inl hx)
  have hunion : ∀ {ids ids' : SortedSet NodeId}, (∀ id ∈ ids, id ∈ ids') →
      ids.union ids' = ids' := fun h => SortedSet.ext_mem fun id =>
    SortedSet.mem_union.trans ⟨fun hid => hid.elim (h id) fun h => h, .inr⟩
  unfold Store.saveFile
  rw [show s.files.get? (described fact file).id = _ from hget]
  simp only [himports]
  rw [show (described fact file).classes.union cs = cs from hunion hcs,
    show (described fact file).functions.union fs = fs from hunion hfs,
    show (described fact file).parent.or file.parent = file.parent from Option.or_self]
  rfl

/-- Nothing but the given revisions has changed, except that classes may have come in and may have
gained super classes. The given revisions have been described. -/
structure DescribesAll (fact : FileFact) (s : Store) (files : List FileRevision)
    (s' : Store) : Prop where
  others : ∀ id ∉ files.map FileRevision.id, s'.files.get? id = s.files.get? id
  classes : s.classes.Grows ClassNode.Gains s'.classes
  each : ∀ file ∈ files, ∃ file', fact.Describes s file s' file'

theorem DescribesAll.cons {files : List FileRevision} (hs : s.Sound owner n) (g : s.Grows s')
    {n' : Nat} (hs' : s'.Sound owner n') (g' : s'.Grows s'')
    (hfiles : ∀ x ∈ files, x ∈ s.files) (hfresh : file.id ∉ files.map FileRevision.id)
    (hfile : fact.DescribesAll s [file] s') (h : fact.DescribesAll s' files s'') :
    fact.DescribesAll s (file :: files) s'' where
  others id hid := by
    rw [List.map_cons, List.mem_cons, not_or] at hid
    rw [h.others id hid.2, hfile.others id (by simpa using hid.1)]
  classes := hfile.classes.trans (fun _ _ _ => .trans) h.classes
  each := by
    refine List.forall_mem_cons.2 ⟨?_, fun x hx => ?_⟩
    · obtain ⟨file', hdescribes⟩ := hfile.each file List.mem_cons_self
      refine ⟨file', hdescribes.of_grows hs' g' ?_⟩
      rw [h.others file.id hfresh, hdescribes.stored]
    · obtain ⟨x', hdescribes⟩ := h.each x hx
      exact ⟨x', hdescribes.of_earlier hs g (hfiles x hx)⟩

/-- The revision has the hash of the fact, and is in a commit of its repository. -/
def Means (fact : FileFact) (s : Store) (file : FileRevision) : Prop :=
  file ∈ s.files ∧ file.hash = some fact.fileHash ∧
    ∃ r ∈ s.repositories, r.token = fact.landscapeToken ∧ r.name = displayName fact.repositoryName ∧
      ∃ c ∈ s.commits, c.id ∈ r.commits ∧ file.id ∈ c.fileRevisions

theorem means_iff (hs : s.Keyed) {r : Repository}
    (hr : s.findRepository fact.landscapeToken (displayName fact.repositoryName) = some r) :
    fact.Means s file ↔ file ∈ s.filesByHash r.id fact.fileHash := by
  obtain ⟨hmem, htoken, hname⟩ := Store.findRepository_spec hr
  rw [Store.mem_filesByHash, Store.mem_fileIdsOf hmem]
  constructor
  · rintro ⟨hfile, hhash, r', hr', htoken', hname', hin⟩
    -- the repository that the fact names is the one that has been found
    obtain rfl : r' = r :=
      Option.some.inj ((hs.findRepository_eq_some_iff.2 ⟨hr', htoken', hname'⟩).symm.trans hr)
    exact ⟨hfile, hin, hhash⟩
  · rintro ⟨hfile, hin, hhash⟩
    exact ⟨hfile, hhash, r, hmem, htoken, hname, hin⟩

/-- The fact has been taken in: all revisions with its hash in the commits of its repository have
been described. -/
structure TakenIn (fact : FileFact) (s : Store) (r : Repository) (count : Nat)
    (s' : Store) : Prop where
  accepted : fact.refusal s = none
  repository : s.findRepository fact.landscapeToken (displayName fact.repositoryName) = some r
  counts : count = (s.filesByHash r.id fact.fileHash).length
  describes : fact.DescribesAll s (s.filesByHash r.id fact.fileHash) s'

end FileFact

namespace Edit

variable {owner : NodeId → String} {n : Nat} {s : Store} {fact : FileFact} {file : FileRevision}

/-- A revision with a content hash is described by a copy that has been read earlier; classes and
functions that have been attached in between stay. -/
theorem runs_describe (h : Ready owner fact.landscapeToken n s) {cs fs : SortedSet NodeId}
    (hget : s.files.get? file.id = some { file with classes := cs, functions := fs })
    (hcs : ∀ id ∈ file.classes, id ∈ cs) (hfs : ∀ id ∈ file.functions, id ∈ fs)
    (hown : owner file.id = fact.landscapeToken) :
    Runs owner fact.landscapeToken .file (change fun s => s.saveFile (described fact file)) n s
      (fun _ s' => s' = { s with
        files := s.files.insert (described fact { file with classes := cs, functions := fs }) })
      fun _ => False := by
  have heq : change (fun s => s.saveFile (described fact file)) s
      = { result := .ok ()
          store := { s with
            files :=
              s.files.insert (described fact { file with classes := cs, functions := fs }) } } := by
    rw [change_apply, FileFact.saveFile_described hget hcs hfs]
  have hmem := Sorted.mem_of_get? hget
  have fits := h.sound.fitting.files _ hmem
  exact Runs.of_step h heq (fun _ => .file nofun hmem hown
    { FileRevision.Kept.rfl with described := fun _ => rfl }
    { parent := fits.parent
      classes := fits.classes
      functions := fits.functions
      inFiles := fits.inFiles }
    (fun hk => absurd rfl hk) nofun) fun _ _ => rfl

theorem classesByName_in {t : String} {ids : SortedSet NodeId}
    (h : ∀ x ∈ ids, s.classes.HasOwn owner t x) :
    NamedIds.In (s.classes.HasOwn owner t) (s.classesByName ids) := by
  intro p hp
  obtain ⟨c, hc, rfl⟩ := List.mem_map.1 hp
  obtain ⟨x, hx, hget⟩ := List.mem_filterMap.1 hc
  obtain rfl := Sorted.key_of_get? hget
  exact h c.id hx

theorem functionsByName_in {t : String} {ids : SortedSet NodeId}
    (h : ∀ x ∈ ids, s.MayHold owner t x) :
    NamedIds.In (s.MayHold owner t) (s.functionsByName ids) := by
  intro p hp
  obtain ⟨g, hg, rfl⟩ := List.mem_map.1 hp
  obtain ⟨x, hx, hget⟩ := List.mem_filterMap.1 hg
  obtain rfl := Sorted.key_of_get? hget
  exact h g.id hx

/-- One revision is described, and then the others are. -/
theorem runs_describeFiles_cons {rest : List FileRevision} {classes functions : NamedIds}
    {P : Unit → Store → Prop} {E : Fault → Prop} (h : Ready owner fact.landscapeToken n s)
    (hfile : file ∈ s.files) (hown : owner file.id = fact.landscapeToken)
    (hcreated : fact.Created owner s classes functions)
    (hrest : ∀ classes functions n' s', Ready owner fact.landscapeToken n' s' → s.Grows s' →
      fact.Created owner s' classes functions → fact.DescribesAll s [file] s' →
      Runs owner fact.landscapeToken .file (describeFiles fact rest classes functions) n' s' P E) :
    Runs owner fact.landscapeToken .file (describeFiles fact (file :: rest) classes functions) n s
      P E := by
  have hget := Sorted.get?_key hfile
  have fits := h.sound.fitting.files file hfile
  have hfileOwn : s.files.HasOwn owner fact.landscapeToken file.id := ⟨⟨file, hget⟩, hown⟩
  have hclassesOwn : ∀ id ∈ file.classes, s.classes.HasOwn owner fact.landscapeToken id := by
    intro id hid
    obtain ⟨c, hc, hcown⟩ := fits.classes id hid
    exact ⟨⟨c, hc⟩, hcown.trans hown⟩
  have hfunctionsOwn : ∀ id ∈ file.functions, s.MayHold owner fact.landscapeToken id := by
    intro id hid
    obtain ⟨f, hf, hfown⟩ := fits.functions id hid
    exact ⟨f, hf, hfown.trans hown, fits.inFiles id hid f hf⟩
  rw [describeFiles]
  refine Runs.store_bind (Runs.bind h (runs_attachClasses h hfileOwn (classesByName_in hclassesOwn)
    .nil hcreated.ownClasses).never ?_)
  rintro ⟨ids, classes₁⟩ n₁ s₁ h₁ g₁ ⟨⟨hids, hclasses₁⟩, hattach⟩
  refine Runs.bind h₁ (runs_linkAllSuperClasses h₁ hids).never ?_
  rintro _ n₂ s₂ h₂ g₂ ⟨hgains, hedges⟩
  -- classes come first, and functions are looked up after that
  have g₁₂ := g₁.trans g₂
  refine Runs.store_bind (Runs.bind h₂ (runs_attachFunctions h₂ (hfileOwn.of_grows g₁₂.files)
    (functionsByName_in fun id hid => (hfunctionsOwn id hid).of_grows g₁₂)
    (hcreated.ownFunctions.mono fun _ hid => hid.of_grows g₁₂)).never ?_)
  rintro functions₃ n₃ s₃ h₃ g₃ ⟨hfunctions₃, hattach'⟩
  obtain ⟨f, cs, hf, hfiles₁, hcs⟩ := hattach.revision
  obtain rfl := Option.some.inj (hget.symm.trans hf)
  have hfiles₂ : s₂.files.get? file.id = some { file with classes := cs } := by
    rw [hgains.files, hfiles₁]
    exact Sorted.get?_insert_self s.files { file with classes := cs }
  obtain ⟨f, fs, hf, hfiles₃, hfs⟩ := hattach'.revision
  obtain rfl := Option.some.inj (hfiles₂.symm.trans hf)
  have hfiles₃' : s₃.files.get? file.id = some { file with classes := cs, functions := fs } := by
    rw [hfiles₃]
    exact Sorted.get?_insert_self s₂.files { file with classes := cs, functions := fs }
  refine Runs.bind h₃ (runs_describe h₃ hfiles₃' (fun id hid => (hcs id).2 (.inl hid))
    (fun id hid => (hfs id).2 (.inl hid)) hown).never ?_
  rintro _ n₄ s₄ h₄ g₄ hs₄
  have g₃₄ := g₃.trans g₄
  have g := g₁₂.trans g₃₄
  have hcreated₄ : fact.Created owner s₄ classes₁ functions₃ := by
    refine FileFact.Created.attach (hcreated.of_grows g) (hclasses₁.of_grows (g₂.trans g₃₄).classes)
      (hfunctions₃.mono fun _ hid => hid.of_grows g₄) (hattach.provides.mono ?_)
      (hattach'.provides.mono ?_)
    · rintro c id ⟨x, hx, hname⟩
      obtain ⟨x', hx', hk⟩ := (g₂.trans g₃₄).classes _ _ hx
      exact ⟨x', hx', hk.name.trans hname⟩
    · intro f id hid
      obtain ⟨_, hid', rfl⟩ := g₄.functions _ _ hid
      exact hid'
  have hdescribes : fact.Describes s file s₄
      (described fact { file with classes := cs, functions := fs }) := by
    refine FileFact.describes_of_parts h.sound hfile g
      (s.lookup_classesByName file.classes) (fun x => ?_) ?_ hcreated₄ hattach.provides.all
      hattach'.provides.all hcs hfs (fun x hx => (hattach.lookup x).trans (if_pos hx)) ?_
    · rw [Store.lookup_functionsByName]
      exact Sorted.named_of_grows g₁₂.functions (fun _ _ hk => congrArg FunctionNode.name hk.symm)
        (fun id hid => (fits.functions id hid).imp fun _ hx => hx.1) x
    · rw [hs₄]
      exact Sorted.get?_insert_self s₃.files
        (described fact { file with classes := cs, functions := fs })
    · intro c hc id hid x hx super hsuper hne
      exact g₃₄.hasEdge_super (hedges c hc id hid x hx super hsuper hne)
  refine hrest classes₁ functions₃ n₄ s₄ h₄ g hcreated₄
    { others := fun id hid => ?_
      classes := ?_
      each := List.forall_mem_singleton.2 ⟨_, hdescribes⟩ }
  · have hne : id ≠ file.id := by simpa using hid
    rw [hs₄]
    simp only [Sorted.get?_insert, hfiles₃, hgains.files, hfiles₁]
    simp [described, hne]
  · have hclasses₄ : s₄.classes = s₂.classes := by
      rw [hs₄]
      exact hattach'.classes
    rw [hclasses₄]
    refine Sorted.Grows.trans (fun _ _ _ => .trans) (fun id x hx => ?_) hgains.classes
    obtain rfl := Sorted.key_of_get? hx
    exact ⟨x, Sorted.get?_key (hattach.classes x (Sorted.mem_of_get? hx)), .rfl⟩

/-- Revisions are described one after another. Each of them is as it was read when its turn
comes. -/
theorem runs_describeFiles {files : List FileRevision} :
    ∀ {classes functions : NamedIds} {n : Nat} {s : Store}, Ready owner fact.landscapeToken n s →
      (files.map FileRevision.id).Nodup → (∀ file ∈ files, file ∈ s.files) →
      (∀ file ∈ files, owner file.id = fact.landscapeToken) →
      fact.Created owner s classes functions →
      Runs owner fact.landscapeToken .file (describeFiles fact files classes functions) n s
        (fun _ s' => fact.DescribesAll s files s') fun _ => False := by
  induction files with
  | nil =>
    intro classes functions n s h hnodup hfiles hown hcreated
    exact Runs.pure ⟨fun _ _ => .refl _, .of_eq (fun _ => .rfl) (.refl _),
      fun _ hmem => absurd hmem List.not_mem_nil⟩
  | cons file rest ih =>
    intro classes functions n s h hnodup hfiles hown hcreated
    obtain ⟨hfresh, hnodup'⟩ := List.nodup_cons.1 hnodup
    obtain ⟨hfile, hrest⟩ := List.forall_mem_cons.1 hfiles
    obtain ⟨hfileOwn, hrestOwn⟩ := List.forall_mem_cons.1 hown
    refine runs_describeFiles_cons h hfile hfileOwn hcreated ?_
    intro classes₁ functions₁ n₁ s₁ h₁ g₁ hcreated₁ hdescribes
    have hrest₁ : ∀ x ∈ rest, x ∈ s₁.files := by
      intro x hx
      have hne : x.id ∉ [file].map FileRevision.id := by
        rw [List.map_singleton, List.mem_singleton]
        exact fun heq => hfresh (heq ▸ List.mem_map_of_mem hx)
      exact Sorted.mem_of_get? ((hdescribes.others x.id hne).trans (Sorted.get?_key (hrest x hx)))
    refine Runs.imp h₁ (ih h₁ hnodup' hrest₁ hrestOwn hcreated₁) ?_
    intro _ n₂ s₂ h₂ g₂ hdescribes'
    exact .cons h.sound g₁ h₁.sound g₂ hrest hfresh hdescribes hdescribes'

theorem runs_ingestFile (h : Ready owner fact.landscapeToken n s) :
    Runs owner fact.landscapeToken .file (ingestFile fact) n s
      (fun count s' => ∃ r, fact.TakenIn s r count s') fun x => fact.refusal s = some x := by
  unfold ingestFile
  refine Runs.bind h (Runs.mono runs_announcedRepository (fun _ _ hP => hP) fun x hx => by
    unfold FileFact.refusal
    rw [hx.1, hx.2]) ?_
  rintro r n₀ s₀ h₀ - ⟨he, hfind⟩
  obtain rfl := he.symm
  obtain ⟨hr, hrtoken, -⟩ := Store.findRepository_spec hfind
  have hrefusal : fact.refusal s = if (s.filesByHash r.id fact.fileHash).isEmpty then
      some (.noRevision fact.fileHash r.name) else none := by
    unfold FileFact.refusal
    rw [hfind]
  refine Runs.store_bind ?_
  by_cases hempty : (s.filesByHash r.id fact.fileHash).isEmpty = true
  · rw [if_pos hempty] at hrefusal
    simp only [hempty, if_true]
    exact Runs.fail hrefusal
  · rw [if_neg hempty] at hrefusal
    simp only [hempty, Bool.false_eq_true, if_false]
    refine Runs.bind h₀ (runs_describeFiles h₀ (s.nodup_filesByHash r.id fact.fileHash)
      (fun file hfile => ?_) (fun file hfile => ?_) .nil).never ?_
    · exact (h₀.sound.of_filesByHash hr hfile).1
    · obtain ⟨-, -, hown⟩ := h₀.sound.of_filesByHash hr hfile
      exact hown.trans hrtoken
    · intro _ n₁ s₁ h₁ g₁ hdescribes
      exact Runs.pure ⟨r, hrefusal, hfind, rfl, hdescribes⟩

end Edit

end Cityscape
