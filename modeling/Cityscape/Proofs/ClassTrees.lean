import Cityscape.Proofs.ClassLayout
import Cityscape.Proofs.WireForms

/-!
# `ClassTrees`: a class is read back with all that lies in it

The ids of the functions and inner classes of a class ascend in the order in which they have been
created, so the sets of ids keep that order. A tree that has been stored can therefore be read again
from its first id, up to the lists that are stored as sets (`ClassFact.reads`). Main statement: after
any calls each tree is stored under new ids, nothing else is changed, and the tree is read back
(`Store.class_tree_stored`).
-/

namespace Cityscape

/-! ## Trees whose lists are sets -/

/-- The elements of a list, each once and in ascending order. -/
def asSet {α : Type} [Ord α] [Std.TransOrd α] [Std.LawfulEqOrd α] (l : List α) : List α :=
  (Sorted.ofList l : SortedSet α).toList

/-- The function with its lists as sets. -/
def FunctionFact.asSets (f : FunctionFact) : FunctionFact :=
  { f with
    annotations := asSet f.annotations
    modifiers := asSet f.modifiers
    outgoingMethodCalls := asSet f.outgoingMethodCalls
    parameters := asSet f.parameters }

mutual

/-- The class with its lists as sets, but for functions and inner classes. Super classes are left
out, as they are linked by name when all classes of a file are there. -/
def ClassFact.asSets : ClassFact → ClassFact
  | ⟨name, kind, modifiers, interfaces, annotations, enumValues, _, fields, innerClasses, functions,
      metrics⟩ =>
    { name := name
      kind := kind
      modifiers := asSet modifiers
      implementedInterfaces := asSet interfaces
      annotations := asSet annotations
      enumValues := asSet enumValues
      fields := asSet fields
      innerClasses := ClassFact.asSetsAll innerClasses
      functions := functions.map FunctionFact.asSets
      metrics := metrics }

/-- The classes with their lists as sets. -/
def ClassFact.asSetsAll : List ClassFact → List ClassFact
  | [] => []
  | c :: cs => c.asSets :: ClassFact.asSetsAll cs

end

/-! ## Reading a class -/

/-- What a stored function says. -/
def FunctionNode.fact (g : FunctionNode) : FunctionFact where
  name := g.name
  returnType := g.returnType
  isConstructor := g.isConstructor
  annotations := g.annotations.toList
  modifiers := g.modifiers.toList
  outgoingMethodCalls := g.outgoingCalls.toList
  parameters := g.parameters.toList
  startLine := g.startLine
  endLine := g.endLine
  metrics := g.metrics

/-- What a stored class says, with its functions and inner classes. -/
def ClassNode.fact (c : ClassNode) (functions : List FunctionFact) (innerClasses : List ClassFact) :
    ClassFact where
  name := c.name
  kind := c.kind
  modifiers := c.modifiers.toList
  implementedInterfaces := c.implementedInterfaces.toList
  annotations := c.annotations.toList
  enumValues := c.enumValues.toList
  fields := c.fields.toList
  innerClasses := innerClasses
  functions := functions
  metrics := c.metrics

namespace Store

/-- The function with the given id. -/
def readFunction (s : Store) (id : NodeId) : Option FunctionFact :=
  (s.functions.get? id).map FunctionNode.fact

/-- The class with the given id, with its functions and inner classes by ascending ids; classes that
lie deeper in one another than allowed are not read. -/
def readClass (s : Store) : Nat → NodeId → Option ClassFact
  | 0, _ => none
  | depth + 1, id => do
    let c ← s.classes.get? id
    let functions ← c.functions.toList.mapM s.readFunction
    let innerClasses ← c.innerClasses.toList.mapM (s.readClass depth)
    return c.fact functions innerClasses

/-- The classes and functions are stored. -/
structure Stores (s : Store) (ks : List ClassNode) (gs : List FunctionNode) : Prop where
  classes : ∀ k ∈ ks, s.classes.get? k.id = some k
  functions : ∀ g ∈ gs, s.functions.get? g.id = some g

theorem Stores.mono {s : Store} {ks ks' : List ClassNode} {gs gs' : List FunctionNode}
    (h : s.Stores ks gs) (hks : ks' ⊆ ks) (hgs : gs' ⊆ gs) : s.Stores ks' gs' where
  classes k hk := h.classes k (hks hk)
  functions g hg := h.functions g (hgs hg)

end Store

namespace ClassFact

variable {s : Store}

theorem read_methodNodes (n : Nat) (fs : List FunctionFact)
    (h : ∀ g ∈ methodNodes n fs, s.functions.get? g.id = some g) :
    ((List.range' n fs.length).map NodeId.nth).mapM s.readFunction
      = some (fs.map FunctionFact.asSets) := by
  induction fs generalizing n with
  | nil => rfl
  | cons f fs ih =>
    obtain ⟨hf, hfs⟩ := List.forall_mem_cons.1 h
    have hread : s.readFunction (.nth n) = some f.asSets := by
      unfold Store.readFunction
      rw [show s.functions.get? (.nth n) = some (f.node (.nth n)) from hf]
      rfl
    rw [List.length_cons, List.range'_succ, List.map_cons, List.mapM_cons, hread, ih _ hfs]
    rfl

/-- The class is read from a store that holds the nodes of its tree. -/
def Reads (c : ClassFact) : Prop :=
  ∀ (s : Store) (n d : Nat), n + c.count ≤ 2 ^ 64 →
    s.Stores (c.classNodes n) (c.functionNodes n) → c.depth ≤ d →
    s.readClass d (.nth n) = some c.asSets

/-- The classes are read from a store that holds the nodes of their trees. -/
def ReadsAll (cs : List ClassFact) : Prop :=
  ∀ (s : Store) (n d : Nat), n + countAll cs ≤ 2 ^ 64 →
    s.Stores (classNodesAll n cs) (functionNodesAll n cs) → depthAll cs ≤ d →
    ((starts n cs).map NodeId.nth).mapM (s.readClass d) = some (asSetsAll cs)

theorem asSets_eq (c : ClassFact) (n : Nat) :
    c.asSets = (c.wholeNode n).fact (c.functions.map FunctionFact.asSets)
      (asSetsAll c.innerClasses) := by
  cases c
  rw [asSets]
  rfl

theorem reads_of_inner (c : ClassFact) (h : ReadsAll c.innerClasses) : c.Reads := by
  intro s n d hroom hstores hdepth
  have hcount := c.count_eq
  have hadd := c.add_count n
  rw [depth_eq] at hdepth
  obtain ⟨d, rfl⟩ := Nat.exists_eq_add_one.2 (Nat.zero_lt_of_lt hdepth)
  rw [classNodes_eq, functionNodes_eq] at hstores
  have hclass : s.classes.get? (.nth n) = some (c.wholeNode n) :=
    hstores.classes _ List.mem_cons_self
  -- ids are listed in the order in which they have been handed out
  have hmethods : (c.wholeNode n).functions.toList
      = (List.range' (n + 1) c.functions.length).map NodeId.nth := by
    refine NodeId.toList_ofList_nth List.pairwise_lt_range' fun i hi => ?_
    have := (List.mem_range'_1.1 hi).2
    omega
  have hinner : (c.wholeNode n).innerClasses.toList
      = (starts (c.innerStart n) c.innerClasses).map NodeId.nth := by
    refine NodeId.toList_ofList_nth (starts_ascending _ _) fun i hi => ?_
    have := (bounds_of_mem_starts hi).2
    omega
  have hfunctions := read_methodNodes (n + 1) c.functions fun g hg =>
    hstores.functions g (List.mem_append_left _ hg)
  have hclasses := h s (c.innerStart n) d (by omega)
    (hstores.mono (List.subset_cons_self _ _) (List.subset_append_right _ _)) (by omega)
  unfold Store.readClass
  rw [hclass, asSets_eq c n]
  show ((c.wholeNode n).functions.toList.mapM s.readFunction >>= fun functions =>
    (c.wholeNode n).innerClasses.toList.mapM (s.readClass d) >>= fun innerClasses =>
      some ((c.wholeNode n).fact functions innerClasses)) = _
  rw [hmethods, hinner, hfunctions]
  show ((((starts (c.innerStart n) c.innerClasses).map NodeId.nth).mapM (s.readClass d)) >>=
    fun innerClasses => some ((c.wholeNode n).fact _ innerClasses)) = _
  rw [hclasses]
  rfl

theorem readsAll_cons (c : ClassFact) (cs : List ClassFact) (hc : c.Reads) (hcs : ReadsAll cs) :
    ReadsAll (c :: cs) := by
  intro s n d hroom hstores hdepth
  rw [countAll, ← Nat.add_assoc] at hroom
  rw [classNodesAll, functionNodesAll] at hstores
  rw [depthAll] at hdepth
  have hfirst := hc s n d (by omega)
    (hstores.mono (List.subset_append_left _ _) (List.subset_append_left _ _)) (by omega)
  have hrest := hcs s (n + c.count) d hroom
    (hstores.mono (List.subset_append_right _ _) (List.subset_append_right _ _)) (by omega)
  rw [starts, List.map_cons, List.mapM_cons, hfirst, hrest, asSetsAll]
  rfl

/-- A stored tree is read back. -/
theorem reads (c : ClassFact) : c.Reads :=
  c.induction reads_of_inner (fun _ _ _ _ _ _ => rfl) readsAll_cons

end ClassFact

/-! ## Trees after any calls -/

/-- What becomes of a store when a tree comes in. -/
structure ClassFact.AddedTo (c : ClassFact) (s s' : Store) : Prop where
  /-- Nothing but classes and functions is touched. -/
  others : s' = { s with
    nextId := s.nextId + .ofNat c.count, classes := s'.classes, functions := s'.functions }
  /-- Classes and functions that have been there stay as they are, and each of the next ids is that
  of one new node. -/
  created : ∃ ks gs, s'.classes.toList.Perm (s.classes.toList ++ ks) ∧
    s'.functions.toList.Perm (s.functions.toList ++ gs) ∧
    ClassFact.Numbers ks gs s.nextId.toNat c.count

namespace Store

theorem get?_nth_eq_none {n : Nat} {α : Type} {key : α → NodeId} {t : Sorted key}
    (ht : ∀ x ∈ t, (key x).Issued n) {i : Nat} (hi : n < i) (hroom : i < 2 ^ 64) :
    t.get? (.nth i) = none := by
  refine get?_eq_none_of_issued ht ?_
  show n < (UInt64.ofNat i).toNat
  rwa [UInt64.toNat_ofNat_of_lt' hroom]

/-- In a store with ids up to `n` a tree is stored under the next ones. -/
theorem Numbered.createClass {n : Nat} {s : Store} (h : s.Numbered n) (c : ClassFact)
    (hids : n + c.count < 2 ^ 64) :
    ∃ id s', Edit.createClass c s = { result := .ok id, store := s', issued := c.count } ∧
      c.AddedTo s s' ∧ ∀ d, c.depth ≤ d → s'.readClass d id = some c.asSets := by
  have hcount := c.count_eq
  have hnext : s.nextId.toNat = n + 1 := h.next_toNat (by omega)
  have hnumbers := c.numbered (n + 1)
  have hnodup := hnumbers.nodup (by omega)
  have hroom : ∀ i, n + 1 ≤ i → i < n + 1 + c.count → i < 2 ^ 64 := fun i _ hi => by omega
  have hclasses : ∀ k ∈ c.classNodes (n + 1), s.classes.get? k.id = none := by
    intro k hk
    obtain ⟨i, hi, hi', hid⟩ := hnumbers.exists_of_mem hk
    exact hid ▸ get?_nth_eq_none h.classes hi (hroom i hi hi')
  have hfunctions : ∀ g ∈ c.functionNodes (n + 1), s.functions.get? g.id = none := by
    intro g hg
    obtain ⟨i, hi, hi', hid⟩ := hnumbers.exists_of_mem_functions hg
    exact hid ▸ get?_nth_eq_none h.functions hi (hroom i hi hi')
  have hcreates := Edit.creates c s (n + 1) s.classes s.functions (by omega) fun i hi hi' =>
    get?_nth_eq_none h.classes hi (hroom i hi hi')
  have hsame : s.withCode (n + 1) s.classes s.functions = s := by
    unfold withCode
    rw [← h.next]
  rw [hsame] at hcreates
  refine ⟨_, _, hcreates, ?_, ?_⟩
  · constructor
    case others =>
      unfold withCode
      rw [h.next, ← UInt64.ofNat_add]
    case created =>
      refine ⟨_, _, Sorted.perm_insertMany hnodup.of_append_left hclasses,
        Sorted.perm_insertMany hnodup.of_append_right hfunctions, ?_⟩
      rw [hnext]
      exact hnumbers
  · intro d hd
    refine c.reads _ (n + 1) d (by omega) ⟨fun k hk => ?_, fun g hg => ?_⟩ hd
    · exact Sorted.get?_insertMany_of_mem hnodup.of_append_left hk
    · exact Sorted.get?_insertMany_of_mem hnodup.of_append_right hg

/-- After any calls a tree of classes can be created. It gets one new id for each class and function,
nothing that has been there is changed, and the tree is read back from its id. -/
theorem class_tree_stored (calls : List Ingestion) (c : ClassFact)
    (hids : (∅ : Store).idsIssued calls + c.count < 2 ^ 64) :
    ∃ id s', Edit.createClass c ((∅ : Store).after calls)
        = { result := .ok id, store := s', issued := c.count } ∧
      c.AddedTo ((∅ : Store).after calls) s' ∧
      ∀ d, c.depth ≤ d → s'.readClass d id = some c.asSets := by
  obtain ⟨owner, hs⟩ := sound_after_empty calls (by omega)
  exact hs.numbered.createClass c hids

end Store

/-- A class with two functions of one name, and two inner classes that have its name. -/
def ClassFact.sample : ClassFact :=
  { name := "A"
    modifiers := ["public", "final", "public"]
    functions := [{ name := "f" }, { name := "f", returnType := some "int" }]
    innerClasses :=
      [{ name := "A", functions := [{ name := "g" }] },
        { name := "A", innerClasses := [{ name := "B" }] }] }

/-- The tree comes in after the calls of `Ingestion.sample`. -/
theorem Store.class_tree_stored_sample :
    ∃ id s', Edit.createClass .sample ((∅ : Store).after Ingestion.sample)
        = { result := .ok id, store := s', issued := 7 } ∧
      ClassFact.sample.AddedTo ((∅ : Store).after Ingestion.sample) s' ∧
      s'.readClass 3 id = some ClassFact.sample.asSets ∧
      ClassFact.sample.asSets.modifiers = ["final", "public"] ∧
      ClassFact.sample.asSets.innerClasses.map ClassFact.name = ["A", "A"] := by
  obtain ⟨id, s', hcreate, hadded, hread⟩ :=
    class_tree_stored Ingestion.sample .sample (by decide +kernel)
  exact ⟨id, s', hcreate, hadded, hread 3 (by decide +kernel), by decide +kernel,
    by decide +kernel⟩

end Cityscape
