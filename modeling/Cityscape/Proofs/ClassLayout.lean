import Cityscape.Proofs.Calls

/-!
# `ClassLayout`: the nodes that creating a class adds

Creating a class hands out ids in the order in which the tree is read: one for the class, then one
for each of its functions, then those of its inner classes one after another. A class is stored
before its functions and inner classes are there, and is changed with each of them. What comes of
that is known beforehand: one node for each class and function of the tree, told from the tree and
its first id (`Edit.creates`). The ids of these nodes are the next ones, each of them once
(`ClassFact.numbered`).
-/

namespace Cityscape

/-! ## Numbers of ids -/

/-- The id with the given number. -/
def NodeId.nth (n : Nat) : NodeId := ⟨.ofNat n⟩

theorem NodeId.nth_injective {i j : Nat} (hi : i < 2 ^ 64) (hj : j < 2 ^ 64)
    (h : NodeId.nth i = NodeId.nth j) : i = j := by
  have hval := congrArg (fun id : NodeId => id.val.toNat) h
  simpa only [NodeId.nth, UInt64.toNat_ofNat_of_lt' hi, UInt64.toNat_ofNat_of_lt' hj] using hval

/-- Ids with ascending numbers are listed in their order. -/
theorem NodeId.toList_ofList_nth {l : List Nat} (hl : l.Pairwise (· < ·))
    (hroom : ∀ i ∈ l, i < 2 ^ 64) :
    (Sorted.ofList (l.map NodeId.nth) : SortedSet NodeId).toList = l.map NodeId.nth := by
  have hascending : (l.map NodeId.nth).Pairwise fun a b => compare a b = .lt := by
    refine List.pairwise_map.2 (hl.imp_of_mem fun {i j} hi hj hij => NodeId.compare_eq_lt.2 ?_)
    rw [UInt64.lt_iff_toNat_lt]
    show (UInt64.ofNat i).toNat < (UInt64.ofNat j).toNat
    rwa [UInt64.toNat_ofNat_of_lt' (hroom i hi), UInt64.toNat_ofNat_of_lt' (hroom j hj)]
  exact congrArg Sorted.toList
    (Sorted.ofList_toList (⟨l.map NodeId.nth, hascending⟩ : SortedSet NodeId))

/-! ## The nodes of a tree -/

section

variable {P : ClassFact → Prop} {Q : List ClassFact → Prop}

mutual

/-- What holds of each class if it holds of its inner classes holds of all classes. -/
theorem ClassFact.induction (mk : ∀ c : ClassFact, Q c.innerClasses → P c) (nil : Q [])
    (cons : ∀ c cs, P c → Q cs → Q (c :: cs)) : ∀ c, P c
  | ⟨_, _, _, _, _, _, _, _, innerClasses, _, _⟩ =>
    mk _ (ClassFact.induction_all mk nil cons innerClasses)

@[inherit_doc ClassFact.induction]
theorem ClassFact.induction_all (mk : ∀ c : ClassFact, Q c.innerClasses → P c) (nil : Q [])
    (cons : ∀ c cs, P c → Q cs → Q (c :: cs)) : ∀ cs, Q cs
  | [] => nil
  | c :: cs =>
    cons c cs (ClassFact.induction mk nil cons c) (ClassFact.induction_all mk nil cons cs)

end

end

mutual

/-- How many classes and functions there are in a class, itself included. -/
def ClassFact.count : ClassFact → Nat
  | ⟨_, _, _, _, _, _, _, _, innerClasses, functions, _⟩ =>
    1 + functions.length + ClassFact.countAll innerClasses

/-- How many classes and functions there are in some classes. -/
def ClassFact.countAll : List ClassFact → Nat
  | [] => 0
  | c :: cs => c.count + ClassFact.countAll cs

end

namespace ClassFact

/-- The numbers of classes that are created one after another. -/
def starts (n : Nat) : List ClassFact → List Nat
  | [] => []
  | c :: cs => n :: starts (n + c.count) cs

/-- The number of the first inner class. -/
def innerStart (c : ClassFact) (n : Nat) : Nat := n + 1 + c.functions.length

/-- The node of a class with the ids of what lies in it. -/
def wholeNode (c : ClassFact) (n : Nat) : ClassNode :=
  { c.node (.nth n) with
    functions := Sorted.ofList ((List.range' (n + 1) c.functions.length).map NodeId.nth)
    innerClasses := Sorted.ofList ((starts (c.innerStart n) c.innerClasses).map NodeId.nth) }

/-- The nodes of functions that are created one after another. -/
def methodNodes (n : Nat) : List FunctionFact → List FunctionNode
  | [] => []
  | f :: fs => f.node (.nth n) :: methodNodes (n + 1) fs

mutual

/-- The nodes of all classes in a class. -/
def classNodes (n : Nat) : ClassFact → List ClassNode
  | c@⟨_, _, _, _, _, _, _, _, innerClasses, _, _⟩ =>
    c.wholeNode n :: classNodesAll (c.innerStart n) innerClasses

/-- The nodes of all classes in some classes. -/
def classNodesAll (n : Nat) : List ClassFact → List ClassNode
  | [] => []
  | c :: cs => c.classNodes n ++ classNodesAll (n + c.count) cs

end

mutual

/-- The nodes of all functions in a class. -/
def functionNodes (n : Nat) : ClassFact → List FunctionNode
  | c@⟨_, _, _, _, _, _, _, _, innerClasses, functions, _⟩ =>
    methodNodes (n + 1) functions ++ functionNodesAll (c.innerStart n) innerClasses

/-- The nodes of all functions in some classes. -/
def functionNodesAll (n : Nat) : List ClassFact → List FunctionNode
  | [] => []
  | c :: cs => c.functionNodes n ++ functionNodesAll (n + c.count) cs

end

variable {c : ClassFact} {cs : List ClassFact} {fs : List FunctionFact} {n i : Nat}

theorem count_eq (c : ClassFact) :
    c.count = 1 + c.functions.length + countAll c.innerClasses := by
  cases c
  rw [count]

theorem classNodes_eq (c : ClassFact) (n : Nat) :
    c.classNodes n = c.wholeNode n :: classNodesAll (c.innerStart n) c.innerClasses := by
  cases c
  rw [classNodes]

theorem functionNodes_eq (c : ClassFact) (n : Nat) :
    c.functionNodes n =
      methodNodes (n + 1) c.functions ++ functionNodesAll (c.innerStart n) c.innerClasses := by
  cases c
  rw [functionNodes]

theorem add_count (c : ClassFact) (n : Nat) :
    n + c.count = c.innerStart n + countAll c.innerClasses := by
  rw [count_eq, innerStart]
  omega

theorem map_id_methodNodes (n : Nat) (fs : List FunctionFact) :
    (methodNodes n fs).map FunctionNode.id = (List.range' n fs.length).map NodeId.nth := by
  induction fs generalizing n with
  | nil => rfl
  | cons f fs ih =>
    rw [methodNodes, List.map_cons, ih, List.length_cons, List.range'_succ]
    rfl

theorem bounds_of_mem_starts (h : i ∈ starts n cs) : n ≤ i ∧ i < n + countAll cs := by
  induction cs generalizing n with
  | nil => cases h
  | cons c cs ih =>
    have hcount := c.count_eq
    rw [countAll]
    rcases List.mem_cons.1 h with rfl | h
    · omega
    · have := ih h
      omega

theorem starts_ascending (n : Nat) (cs : List ClassFact) : (starts n cs).Pairwise (· < ·) := by
  induction cs generalizing n with
  | nil => exact .nil
  | cons c cs ih =>
    have hcount := c.count_eq
    refine List.pairwise_cons.2 ⟨fun i hi => ?_, ih _⟩
    have := (bounds_of_mem_starts hi).1
    omega

/-- The ids of some nodes are those of the numbers from `n` on, each of them once. -/
def Numbers (classes : List ClassNode) (functions : List FunctionNode) (n count : Nat) : Prop :=
  (classes.map ClassNode.id ++ functions.map FunctionNode.id).Perm
    ((List.range' n count).map NodeId.nth)

/-- A class takes up the numbers from its own one on. -/
def Numbered (c : ClassFact) : Prop :=
  ∀ n, Numbers (c.classNodes n) (c.functionNodes n) n c.count

/-- Classes take up the numbers from the first one's on. -/
def NumberedAll (cs : List ClassFact) : Prop :=
  ∀ n, Numbers (classNodesAll n cs) (functionNodesAll n cs) n (countAll cs)

theorem numbered_of_inner (c : ClassFact) (h : NumberedAll c.innerClasses) : c.Numbered := by
  intro n
  have hrange : List.range' n (1 + c.functions.length + countAll c.innerClasses) = n ::
      (List.range' (n + 1) c.functions.length ++
        List.range' (c.innerStart n) (countAll c.innerClasses)) := by
    rw [innerStart, List.range'_append_1, Nat.add_assoc, Nat.add_comm 1, List.range'_succ]
  unfold Numbers
  rw [classNodes_eq, functionNodes_eq, count_eq, hrange, List.map_cons, List.map_append,
    List.map_cons, List.map_append, map_id_methodNodes]
  exact .cons _ ((List.perm_append_comm_assoc _ _ _).trans ((h _).append_left _))

theorem numberedAll_cons (c : ClassFact) (cs : List ClassFact) (hc : c.Numbered)
    (hcs : NumberedAll cs) : NumberedAll (c :: cs) := by
  intro n
  unfold Numbers
  rw [classNodesAll, functionNodesAll, countAll, ← List.range'_append_1, List.map_append,
    List.map_append, List.map_append, List.append_assoc]
  refine ((List.perm_append_comm_assoc _ _ _).append_left _).trans ?_
  rw [← List.append_assoc]
  exact (hc n).append (hcs _)

theorem numbered (c : ClassFact) : c.Numbered :=
  induction numbered_of_inner (fun _ => .nil) numberedAll_cons c

theorem numberedAll (cs : List ClassFact) : NumberedAll cs :=
  induction_all numbered_of_inner (fun _ => .nil) numberedAll_cons cs

section

variable {ks : List ClassNode} {gs : List FunctionNode} {count : Nat}

theorem Numbers.exists_of_mem_ids (h : Numbers ks gs n count) {id : NodeId}
    (hid : id ∈ ks.map ClassNode.id ++ gs.map FunctionNode.id) :
    ∃ i, n ≤ i ∧ i < n + count ∧ NodeId.nth i = id := by
  obtain ⟨i, hi, hid⟩ := List.mem_map.1 (h.mem_iff.1 hid)
  exact ⟨i, (List.mem_range'_1.1 hi).1, (List.mem_range'_1.1 hi).2, hid⟩

theorem Numbers.exists_of_mem (h : Numbers ks gs n count) {x : ClassNode} (hx : x ∈ ks) :
    ∃ i, n ≤ i ∧ i < n + count ∧ NodeId.nth i = x.id :=
  h.exists_of_mem_ids (List.mem_append_left _ (List.mem_map.2 ⟨x, hx, rfl⟩))

theorem Numbers.exists_of_mem_functions (h : Numbers ks gs n count) {g : FunctionNode}
    (hg : g ∈ gs) : ∃ i, n ≤ i ∧ i < n + count ∧ NodeId.nth i = g.id :=
  h.exists_of_mem_ids (List.mem_append_right _ (List.mem_map.2 ⟨g, hg, rfl⟩))

theorem Numbers.nodup (h : Numbers ks gs n count) (hroom : n + count ≤ 2 ^ 64) :
    (ks.map ClassNode.id ++ gs.map FunctionNode.id).Nodup := by
  refine h.nodup_iff.2 (List.Nodup.map_on (fun i hi j hj => ?_) List.nodup_range')
  have := (List.mem_range'_1.1 hi).2
  have := (List.mem_range'_1.1 hj).2
  exact NodeId.nth_injective (by omega) (by omega)

end

end ClassFact

/-! ## Creating a class -/

/-- The store with other classes and functions, and another number for the next id. -/
def Store.withCode (s : Store) (n : Nat) (classes : Sorted ClassNode.id)
    (functions : Sorted FunctionNode.id) : Store :=
  { s with nextId := .ofNat n, classes := classes, functions := functions }

namespace ClassNode

/-- The class with more functions. -/
def withMethods (k : ClassNode) (ids : List NodeId) : ClassNode :=
  { k with functions := k.functions.insertMany ids }

/-- The class with more inner classes. -/
def withInner (k : ClassNode) (ids : List NodeId) : ClassNode :=
  { k with innerClasses := k.innerClasses.insertMany ids }

end ClassNode

namespace Edit

open ClassFact

/-- In store `s` the edit comes to the value `a` and the store `s'`, and hands out `j` ids. -/
def Yields {α : Type} (e : Edit α) (s : Store) (a : α) (s' : Store) (j : Nat) : Prop :=
  e s = { result := .ok a, store := s', issued := j }

section

variable {α β : Type} {e : Edit α} {f : α → Edit β} {a : α} {b : β} {s s' s'' : Store} {i j : Nat}

theorem Yields.bind (he : e.Yields s a s' i) (hf : (f a).Yields s' b s'' j) :
    (e >>= f).Yields s b s'' (i + j) := by
  unfold Yields at *
  rw [bind_of_ok he, hf]

theorem Yields.pure : (pure a : Edit α).Yields s a s 0 := rfl

theorem Yields.of_eq (h : e.Yields s a s' i) (hs : s' = s'') (hi : i = j) :
    e.Yields s a s'' j := hs ▸ hi ▸ h

end

section

variable {s : Store} {classes : Sorted ClassNode.id} {functions : Sorted FunctionNode.id} {n : Nat}
  {k : ClassNode}

theorem allocate_yields :
    allocate.Yields (s.withCode n classes functions) (.nth n)
      (s.withCode (n + 1) classes functions) 1 := by
  unfold Yields Store.withCode
  rw [allocate_apply, UInt64.ofNat_add n 1]
  rfl

theorem createFunction_yields (f : FunctionFact) :
    (createFunction f).Yields (s.withCode n classes functions) (.nth n)
      (s.withCode (n + 1) classes (functions.insert (f.node (.nth n)))) 1 :=
  allocate_yields.bind (j := 0) rfl

theorem linkMethod_yields (s : Store) (n : Nat) (id : NodeId) {g : FunctionNode}
    (hk : classes.get? k.id = some k) (hg : functions.get? id = some g) :
    ∃ isNew, (mergeEdge .classFunction k.id id).Yields (s.withCode n classes functions) isNew
      (s.withCode n (classes.insert (k.withMethods [id])) functions) 0 :=
  mergeEdge_classFunction (s := s.withCode n classes functions) hk hg

theorem linkInnerClass_yields (s : Store) (n : Nat) (functions : Sorted FunctionNode.id)
    (id : NodeId) {c : ClassNode} (hk : classes.get? k.id = some k)
    (hc : classes.get? id = some c) :
    ∃ isNew, (mergeEdge .classInnerClass k.id id).Yields (s.withCode n classes functions) isNew
      (s.withCode n (classes.insert (k.withInner [id])) functions) 0 :=
  mergeEdge_classInnerClass (s := s.withCode n classes functions) hk hc

theorem saveClass_yields {c : ClassFact} (h : classes.get? (.nth n) = none) :
    (change fun s => s.saveClass (c.node (.nth n))).Yields (s.withCode (n + 1) classes functions) ()
      (s.withCode (n + 1) (classes.insert (c.node (.nth n))) functions) 0 := by
  have hnone : (s.withCode (n + 1) classes functions).classes.get? (c.node (.nth n)).id = none := h
  unfold Yields
  rw [change_apply]
  unfold Store.saveClass
  rw [hnone]
  rfl

/-- Functions come in one after another, and the class gets their ids. -/
theorem createMethods_yields (fs : List FunctionFact) (hk : classes.get? k.id = some k) :
    (createMethods k.id fs).Yields (s.withCode n classes functions) ()
      (s.withCode (n + fs.length)
        (classes.insert (k.withMethods ((List.range' n fs.length).map NodeId.nth)))
        (functions.insertMany (methodNodes n fs)))
      fs.length := by
  induction fs generalizing n classes functions k with
  | nil =>
    have hsame : classes.insert (k.withMethods []) = classes :=
      Sorted.insert_eq_self (Sorted.mem_of_get? hk)
    exact Yields.pure.of_eq (congrArg (s.withCode n · functions) hsame.symm) rfl
  | cons f fs ih =>
    obtain ⟨isNew, hlink⟩ := linkMethod_yields s (n + 1) (.nth n) hk
      (Sorted.get?_insert_self functions (f.node (.nth n)))
    have hk' := Sorted.get?_insert_self classes (k.withMethods [.nth n])
    have hrest : (createMethods k.id (f :: fs)).Yields (s.withCode n classes functions) () _ _ :=
      (createFunction_yields f).bind (hlink.bind (ih (k := k.withMethods [.nth n]) hk'))
    have htwice : ∀ ids, (classes.insert (k.withMethods [.nth n])).insert
        ((k.withMethods [.nth n]).withMethods ids) = classes.insert (k.withMethods (.nth n :: ids)) :=
      fun _ => Sorted.insert_insert rfl
    rw [htwice] at hrest
    refine hrest.of_eq ?_ ?_
    · rw [List.length_cons, List.range'_succ, methodNodes, Nat.add_assoc, Nat.add_comm 1]
      rfl
    · rw [List.length_cons, Nat.zero_add, Nat.add_comm]

end

theorem createClass_eq (c : ClassFact) :
    createClass c = do
      let id ← allocate
      change fun s => s.saveClass (c.node id)
      createMethods id c.functions
      createInnerClasses id c.innerClasses
      return id := by
  cases c
  rw [createClass]
  rfl

/-- None of the ids from one number up to another one is that of a class. -/
def Unused (classes : Sorted ClassNode.id) (n m : Nat) : Prop :=
  ∀ i, n ≤ i → i < m → classes.get? (.nth i) = none

section

variable {classes : Sorted ClassNode.id} {n m n' m' : Nat} {k : ClassNode} {l : List ClassNode}

theorem Unused.ne (h : Unused classes n m) (hk : classes.get? k.id = some k) {i : Nat}
    (hn : n ≤ i) (hm : i < m) : NodeId.nth i ≠ k.id := by
  intro hid
  have hnone := h i hn hm
  rw [hid, hk] at hnone
  cases hnone

theorem Unused.ne_of_mem (h : Unused classes n m) (hk : classes.get? k.id = some k)
    {functions : List FunctionNode} {count : Nat} (hl : Numbers l functions n' count) (hn : n ≤ n')
    (hm : n' + count ≤ m) : ∀ x ∈ l, x.id ≠ k.id := by
  intro x hx
  obtain ⟨i, hi, hi', hid⟩ := hl.exists_of_mem hx
  exact hid ▸ h.ne hk (by omega) (by omega)

theorem Unused.insert (h : Unused classes n m) (hk : ∀ i, n ≤ i → i < m → NodeId.nth i ≠ k.id) :
    Unused (classes.insert k) n m := by
  intro i hn hm
  rw [Sorted.get?_insert_of_ne (hk i hn hm)]
  exact h i hn hm

theorem Unused.insertMany (h : Unused classes n m) {functions : List FunctionNode} {count : Nat}
    (hl : Numbers l functions n' count) (hn : n' + count ≤ n) (hm : m ≤ 2 ^ 64) :
    Unused (classes.insertMany l) n m := by
  intro i hni hmi
  rw [Sorted.get?_insertMany_of_ne]
  · exact h i hni hmi
  · intro x hx hid
    obtain ⟨j, hj, hj', hjx⟩ := hl.exists_of_mem hx
    have := NodeId.nth_injective (by omega) (by omega) (hjx.trans hid)
    omega

theorem Unused.mono (h : Unused classes n m) (hn : n ≤ n') (hm : m' ≤ m) : Unused classes n' m' :=
  fun i hni hmi => h i (Nat.le_trans hn hni) (Nat.lt_of_lt_of_le hmi hm)

end

/-- Creating the class adds the nodes of its tree. -/
def Creates (c : ClassFact) : Prop :=
  ∀ (s : Store) (n : Nat) (classes : Sorted ClassNode.id) (functions : Sorted FunctionNode.id),
    n + c.count ≤ 2 ^ 64 → Unused classes n (n + c.count) →
    (createClass c).Yields (s.withCode n classes functions) (.nth n)
      (s.withCode (n + c.count) (classes.insertMany (c.classNodes n))
        (functions.insertMany (c.functionNodes n)))
      c.count

/-- Creating the classes in another class adds the nodes of their trees to the other class. -/
def CreatesInner (cs : List ClassFact) : Prop :=
  ∀ (s : Store) (n : Nat) (classes : Sorted ClassNode.id) (functions : Sorted FunctionNode.id)
    (k : ClassNode), classes.get? k.id = some k →
    n + countAll cs ≤ 2 ^ 64 → Unused classes n (n + countAll cs) →
    (createInnerClasses k.id cs).Yields (s.withCode n classes functions) ()
      (s.withCode (n + countAll cs)
        ((classes.insertMany (classNodesAll n cs)).insert
          (k.withInner ((starts n cs).map NodeId.nth)))
        (functions.insertMany (functionNodesAll n cs)))
      (countAll cs)

theorem creates_of_inner (c : ClassFact) (h : CreatesInner c.innerClasses) : Creates c := by
  intro s n classes functions hroom hunused
  have hcount := c.count_eq
  have hadd := c.add_count n
  have hstart : c.innerStart n = n + 1 + c.functions.length := rfl
  have hnone : classes.get? (.nth n) = none := hunused n le_rfl (by omega)
  have hmethods : (createMethods (.nth n) c.functions).Yields
      (s.withCode (n + 1) (classes.insert (c.node (.nth n))) functions) () _ _ :=
    createMethods_yields c.functions (Sorted.get?_insert_self classes (c.node (.nth n)))
  -- the class with the ids of its functions
  let k := (c.node (.nth n)).withMethods ((List.range' (n + 1) c.functions.length).map NodeId.nth)
  have hk := Sorted.get?_insert_self classes k
  have hother : ∀ i, c.innerStart n ≤ i → i < n + c.count → NodeId.nth i ≠ k.id := by
    intro i hi hi' hid
    have := NodeId.nth_injective (by omega) (by omega) hid
    omega
  have hlater : ∀ x ∈ classNodesAll (c.innerStart n) c.innerClasses, x.id ≠ k.id := by
    have hnumbers : Numbers _ _ (c.innerStart n) (countAll c.innerClasses) :=
      numberedAll c.innerClasses _
    intro x hx
    obtain ⟨i, hi, hi', hid⟩ := hnumbers.exists_of_mem hx
    exact hid ▸ hother i hi (by omega)
  rw [show (classes.insert (c.node (.nth n))).insert _ = classes.insert k from
    Sorted.insert_insert rfl] at hmethods
  have hinner := h s (c.innerStart n) (classes.insert k)
    (functions.insertMany (methodNodes (n + 1) c.functions)) k hk (by omega)
    (hadd ▸ (hunused.mono (by omega) le_rfl).insert hother)
  have hend := hinner.bind (f := fun _ => pure (NodeId.nth n)) .pure
  rw [createClass_eq]
  refine (allocate_yields.bind ((saveClass_yields hnone).bind (hmethods.bind hend))).of_eq ?_ ?_
  case refine_2 => omega
  -- the class itself comes in for good when all that lies in it is there
  have hwhole : k.withInner ((starts (c.innerStart n) c.innerClasses).map NodeId.nth)
      = c.wholeNode n := rfl
  have hclasses : ((classes.insert k).insertMany (classNodesAll (c.innerStart n) c.innerClasses)).insert
      (c.wholeNode n) = classes.insertMany (c.classNodes n) := by
    rw [Sorted.insert_insertMany_insert (y := c.wholeNode n) hlater rfl,
      Sorted.insert_insertMany (x := c.wholeNode n) hlater, classNodes_eq]
    rfl
  have hfunctions : (functions.insertMany (methodNodes (n + 1) c.functions)).insertMany
      (functionNodesAll (c.innerStart n) c.innerClasses)
        = functions.insertMany (c.functionNodes n) := by
    rw [functionNodes_eq, Sorted.insertMany_append]
  rw [hwhole, hclasses, hfunctions, hadd]

theorem createsInner_nil : CreatesInner [] := by
  intro s n classes functions k hk _ _
  have hsame : classes.insert (k.withInner []) = classes :=
    Sorted.insert_eq_self (Sorted.mem_of_get? hk)
  exact Yields.pure.of_eq (congrArg (s.withCode n · functions) hsame.symm) rfl

theorem createsInner_cons (c : ClassFact) (cs : List ClassFact) (hc : Creates c)
    (hcs : CreatesInner cs) : CreatesInner (c :: cs) := by
  intro s n classes functions k hk hroom hunused
  have hcount := c.count_eq
  have hall : n + countAll (c :: cs) = n + c.count + countAll cs := by
    rw [countAll]
    omega
  have hunused₁ : Unused classes n (n + c.count) := hunused.mono le_rfl (by omega)
  have hunused₂ : Unused classes (n + c.count) (n + c.count + countAll cs) :=
    hunused.mono (by omega) (by omega)
  -- the new classes are not the one around them
  have hne₁ : ∀ x ∈ c.classNodes n, x.id ≠ k.id :=
    hunused₁.ne_of_mem hk (c.numbered n) le_rfl le_rfl
  have hne₂ : ∀ x ∈ classNodesAll (n + c.count) cs, x.id ≠ k.id :=
    hunused₂.ne_of_mem hk (numberedAll cs _) le_rfl le_rfl
  let classes₁ := classes.insertMany (c.classNodes n)
  have hk₁ : classes₁.get? k.id = some k := (Sorted.get?_insertMany_of_ne hne₁).trans hk
  have hmem : c.wholeNode n ∈ c.classNodes n := by
    rw [classNodes_eq]
    exact List.mem_cons_self
  have hnew : classes₁.get? (.nth n) = some (c.wholeNode n) :=
    Sorted.get?_insertMany_of_mem ((c.numbered n).nodup (by omega)).of_append_left hmem
  obtain ⟨isNew, hlink⟩ := linkInnerClass_yields s (n + c.count)
    (functions.insertMany (c.functionNodes n)) (.nth n) hk₁ hnew
  have hunused' : Unused (classes₁.insert (k.withInner [.nth n])) (n + c.count)
      (n + c.count + countAll cs) :=
    (hunused₂.insertMany (c.numbered n) le_rfl (by omega)).insert fun i hi hi' =>
      hunused₂.ne hk hi hi'
  have hrest := hcs s (n + c.count) (classes₁.insert (k.withInner [.nth n]))
    (functions.insertMany (c.functionNodes n)) (k.withInner [.nth n])
    (Sorted.get?_insert_self _ _) (by omega) hunused'
  rw [createInnerClasses]
  refine ((hc s n classes functions (by omega) hunused₁).bind (hlink.bind hrest)).of_eq ?_ ?_
  · have hclasses : ((classes₁.insert (k.withInner [.nth n])).insertMany
        (classNodesAll (n + c.count) cs)).insert
          ((k.withInner [.nth n]).withInner ((starts (n + c.count) cs).map NodeId.nth))
        = (classes.insertMany (classNodesAll n (c :: cs))).insert
          (k.withInner ((starts n (c :: cs)).map NodeId.nth)) := by
      rw [classNodesAll, Sorted.insertMany_append]
      exact Sorted.insert_insertMany_insert hne₂ rfl
    rw [hclasses, hall, functionNodesAll, Sorted.insertMany_append]
  · rw [countAll]
    omega

/-- Creating a class adds the nodes of its tree to a store in which the ids of the next numbers are
not those of classes. -/
theorem creates (c : ClassFact) : Creates c :=
  c.induction creates_of_inner createsInner_nil createsInner_cons

end Edit

end Cityscape
