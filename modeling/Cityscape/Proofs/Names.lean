import Cityscape.Ingestion.Files
import Cityscape.Proofs.Revisions

/-!
# `Names`: what a name stands for

Of the elements with given ids that have a name, the one with the least id counts
(`Sorted.named`). When elements for some more names come in, each name stands for what it has stood
for before, or else for the new element (`Sorted.named_attached`). The names that a list of facts
needs are found one after another, and what is missing is created once
(`NamedIds.Provides`).
-/

namespace Cityscape

/-- The first elements of two tables that satisfy a condition have the same id if the same ids
satisfy it. -/
theorem map_find?_congr {α : Type} {key : α → NodeId} {t t' : Sorted key} {P P' : α → Bool}
    (h : ∀ id, (∃ x ∈ t, key x = id ∧ P x) ↔ ∃ x ∈ t', key x = id ∧ P' x) :
    (t.toList.find? P).map key = (t'.toList.find? P').map key := by
  have hasc : ∀ t : Sorted key, t.toList.Pairwise fun a b => (key a).val < (key b).val :=
    fun t => t.ascending.imp NodeId.compare_eq_lt.1
  -- what is found first in one table is found first in the other one
  have hfound : ∀ {t t' : Sorted key} {P P' : α → Bool},
      (∀ id, (∃ x ∈ t, key x = id ∧ P x) ↔ ∃ x ∈ t', key x = id ∧ P' x) →
      ∀ x, t.toList.find? P = some x → ∃ y, t'.toList.find? P' = some y ∧ key y = key x := by
    intro t t' P P' h x hx
    obtain ⟨⟨hmem, hP⟩, hleast⟩ := (find?_eq_some_iff_least (hasc t)).1 hx
    obtain ⟨y, hy, hkey, hP'⟩ := (h (key x)).1 ⟨x, hmem, rfl, hP⟩
    refine ⟨y, (find?_eq_some_iff_least (hasc t')).2 ⟨⟨hy, hP'⟩, fun z hz hPz => ?_⟩, hkey⟩
    obtain ⟨z', hz', hkey', hPz'⟩ := (h (key z)).2 ⟨z, hz, rfl, hPz⟩
    rw [hkey, ← hkey']
    exact hleast z' hz' hPz'
  cases hx : t.toList.find? P with
  | some x =>
    obtain ⟨y, hy, hkey⟩ := hfound h x hx
    rw [hy, Option.map_some, Option.map_some, hkey]
  | none =>
    cases hy : t'.toList.find? P' with
    | none => rfl
    | some y =>
      obtain ⟨x, hx', -⟩ := hfound (fun id => (h id).symm) y hy
      rw [hx] at hx'
      cases hx'

namespace Sorted

variable {α : Type} {key : α → NodeId} {name : α → String} {t t' : Sorted key}
  {ids ids' : SortedSet NodeId} {x : String} {id : NodeId}

/-- The element with a name among those with the given ids; of several the one with the least
id. -/
def named (t : Sorted key) (name : α → String) (ids : SortedSet NodeId) (x : String) :
    Option NodeId :=
  (t.toList.find? fun a => ids.contains (key a) ∧ name a = x).map key

theorem named_eq_some_iff : t.named name ids x = some id ↔
    (∃ a, t.get? id = some a ∧ id ∈ ids ∧ name a = x) ∧
      ∀ a ∈ t, key a ∈ ids → name a = x → id.val ≤ (key a).val := by
  unfold named
  simp only [Option.map_eq_some_iff,
    find?_eq_some_iff_least (t.ascending.imp NodeId.compare_eq_lt.1), decide_eq_true_eq,
    SortedSet.contains_iff, mem_toList, and_imp]
  constructor
  case mp =>
    rintro ⟨a, ⟨⟨ha, hid, hname⟩, hleast⟩, rfl⟩
    exact ⟨⟨a, get?_key ha, hid, hname⟩, hleast⟩
  case mpr =>
    rintro ⟨⟨a, ha, hid, hname⟩, hleast⟩
    obtain rfl := key_of_get? ha
    exact ⟨a, ⟨⟨mem_of_get? ha, hid, hname⟩, hleast⟩, rfl⟩

theorem named_eq_none_iff :
    t.named name ids x = none ↔ ∀ a ∈ t, key a ∈ ids → name a ≠ x := by
  unfold named
  simp only [Option.map_eq_none_iff, List.find?_eq_none, decide_eq_true_eq,
    SortedSet.contains_iff, mem_toList, not_and, ne_eq]

/-- If there is but one element with the name, that is it. -/
theorem named_eq_of_only {o : Option NodeId}
    (honly : ∀ a ∈ t, key a ∈ ids → name a = x → o = some (key a))
    (hsome : ∀ id, o = some id → ∃ a, t.get? id = some a ∧ id ∈ ids ∧ name a = x) :
    t.named name ids x = o := by
  cases o with
  | none => exact named_eq_none_iff.2 fun a ha hid hname => nomatch honly a ha hid hname
  | some id =>
    refine named_eq_some_iff.2 ⟨hsome id rfl, fun a ha hid hname => ?_⟩
    rw [Option.some.inj (honly a ha hid hname)]
    exact UInt64.le_refl _

theorem isSome_named_iff : (t.named name ids x).isSome ↔ x ∈ t.namesIn name ids := by
  rw [← not_iff_not, Bool.not_eq_true, Option.isSome_eq_false_iff, Option.isNone_iff_eq_none,
    named_eq_none_iff, mem_namesIn]
  constructor
  case mp =>
    rintro h ⟨i, hi, a, ha, hname⟩
    obtain rfl := key_of_get? ha
    exact h a (mem_of_get? ha) hi hname
  case mpr => exact fun h a ha hid hname => h ⟨key a, hid, a, get?_key ha, hname⟩

/-- The table has come to hold more elements, and the old ones keep their names. -/
theorem named_of_grows {kept : α → α → Prop} (g : t.Grows kept t')
    (hkept : ∀ a b, kept a b → name b = name a) (hids : ∀ id ∈ ids, ∃ a, t.get? id = some a)
    (x : String) : t'.named name ids x = t.named name ids x := by
  refine map_find?_congr fun id => ?_
  simp only [decide_eq_true_eq, SortedSet.contains_iff]
  constructor
  case mp =>
    rintro ⟨b, hb, rfl, hid, rfl⟩
    obtain ⟨a, ha⟩ := hids _ hid
    obtain ⟨b', hb', hk⟩ := g _ _ ha
    obtain rfl := Option.some.inj ((get?_key hb).symm.trans hb')
    exact ⟨a, mem_of_get? ha, key_of_get? ha, key_of_get? ha ▸ hid, (hkept a b hk).symm⟩
  case mpr =>
    rintro ⟨a, ha, rfl, hid, rfl⟩
    obtain ⟨b, hb, hk⟩ := g _ _ (get?_key ha)
    exact ⟨b, mem_of_get? hb, key_of_get? hb, key_of_get? hb ▸ hid, hkept a b hk⟩

/-- Looking up a name among the elements with the given ids. -/
theorem lookup_names (t : Sorted key) (name : α → String) (ids : SortedSet NodeId) (x : String) :
    ((ids.toList.filterMap t.get?).map fun a => (name a, key a)).lookup x
      = t.named name ids x := by
  have hlookup : ∀ l : List α, (l.map fun a => (name a, key a)).lookup x
      = (l.find? fun a => name a = x).map key := by
    intro l
    induction l with
    | nil => rfl
    | cons a l ih =>
      rw [List.map_cons, List.lookup_cons, List.find?_cons, ih]
      by_cases hname : name a = x
      · simp [hname]
      · simp [hname, beq_eq_false_iff_ne.2 (Ne.symm hname)]
  -- the elements with the given ids, in the order of the whole table
  have hlist : ids.toList.filterMap t.get? = t.toList.filter fun a => ids.contains (key a) := by
    have hascending : (ids.toList.filterMap t.get?).Pairwise
        fun a b => compare (key a) (key b) = .lt := by
      refine List.Pairwise.filterMap _ ?_ ids.ascending
      intro i j hlt a ha b hb
      rw [key_of_get? ha, key_of_get? hb]
      exact hlt
    refine eq_of_ascending hascending (t.ascending.filter _) fun a => ?_
    simp only [List.mem_filterMap, List.mem_filter, mem_toList, SortedSet.contains_iff]
    constructor
    · rintro ⟨i, hi, ha⟩
      obtain rfl := key_of_get? ha
      exact ⟨mem_of_get? ha, hi⟩
    · rintro ⟨ha, hi⟩
      exact ⟨key a, hi, get?_key ha⟩
  unfold named
  rw [hlist, hlookup, List.find?_filter]
  simp

end Sorted

namespace Store

variable {s : Store}

theorem lookup_classesByName (s : Store) (ids : SortedSet NodeId) (x : String) :
    (s.classesByName ids).lookup x = s.classes.named ClassNode.name ids x :=
  s.classes.lookup_names ClassNode.name ids x

theorem lookup_functionsByName (s : Store) (ids : SortedSet NodeId) (x : String) :
    (s.functionsByName ids).lookup x = s.functions.named FunctionNode.name ids x :=
  s.functions.lookup_names FunctionNode.name ids x

end Store

/-! ## Names that facts need -/

namespace NamedIds

/-- What a name stands for: what has been there, or else what was created. -/
def find (existing created : NamedIds) (x : String) : Option NodeId :=
  (existing.lookup x).or (created.lookup x)

theorem lookup_cons (created : NamedIds) (x y : String) (id : NodeId) :
    List.lookup y ((x, id) :: created) = if y = x then some id else created.lookup y := by
  rw [List.lookup_cons]
  by_cases h : y = x
  · simp [h]
  · simp [h, beq_eq_false_iff_ne.2 h]

/-- All facts of a list have been provided with an element of their name. What was created before
is used again, and an element that is missing is created from the first fact with its name. -/
structure Provides {F : Type} (name : F → String) (stored : F → NodeId → Prop)
    (existing created : NamedIds) (facts : List F) (created' : NamedIds) : Prop where
  kept : ∀ x id, created.lookup x = some id → created'.lookup x = some id
  new : ∀ x id, created'.lookup x = some id → created.lookup x = some id ∨
    find existing created x = none ∧
      ∃ f, (facts.find? fun f => name f = x) = some f ∧ stored f id
  all : ∀ f ∈ facts, (find existing created' (name f)).isSome

namespace Provides

variable {F : Type} {name : F → String} {stored stored' : F → NodeId → Prop}
  {existing created created' : NamedIds} {facts rest : List F} {f : F} {id : NodeId}

theorem find_of_some (h : Provides name stored existing created facts created') {x : String}
    (hx : find existing created x = some id) : find existing created' x = some id := by
  unfold find at hx ⊢
  rcases Option.or_eq_some_iff.1 hx with hx | ⟨hnone, hx⟩
  · rw [hx, Option.some_or]
  · rw [hnone, Option.none_or, h.kept x id hx]

theorem nil : Provides name stored existing created [] created :=
  ⟨fun _ _ h => h, fun _ _ h => .inl h, nofun⟩

/-- The element of the first fact is found. -/
theorem found (hf : find existing created (name f) = some id)
    (h : Provides name stored existing created rest created') :
    Provides name stored existing created (f :: rest) created' where
  kept := h.kept
  new x i hx := by
    refine (h.new x i hx).imp_right fun ⟨hnone, g, hg, hstored⟩ => ⟨hnone, g, ?_, hstored⟩
    have hne : name f ≠ x := by
      rintro rfl
      rw [hf] at hnone
      cases hnone
    rw [List.find?_cons_of_neg (by simpa using hne), hg]
  all := List.forall_mem_cons.2 ⟨by rw [h.find_of_some hf]; rfl, h.all⟩

/-- What has been created for the first fact stays the one of its name. -/
theorem find_created (hf : find existing created (name f) = none)
    (h : Provides name stored existing ((name f, id) :: created) rest created') :
    find existing created' (name f) = some id := by
  refine h.find_of_some ?_
  unfold find
  rw [(Option.or_eq_none_iff.1 hf).1, Option.none_or, lookup_cons, if_pos rfl]

/-- The element of the first fact is created. -/
theorem create (hf : find existing created (name f) = none) (hstored : stored f id)
    (h : Provides name stored existing ((name f, id) :: created) rest created') :
    Provides name stored existing created (f :: rest) created' where
  kept x i hx := by
    refine h.kept x i ?_
    have hne : x ≠ name f := by
      rintro rfl
      rw [(Option.or_eq_none_iff.1 hf).2] at hx
      cases hx
    rw [lookup_cons, if_neg hne, hx]
  new x i hx := by
    by_cases hname : x = name f
    · subst hname
      have hid := h.kept (name f) id (by rw [lookup_cons, if_pos rfl])
      obtain rfl := Option.some.inj (hx.symm.trans hid)
      exact .inr ⟨hf, f, List.find?_cons_of_pos (by simp), hstored⟩
    · have h' := h.new x i hx
      unfold find at h' ⊢
      rw [lookup_cons, if_neg hname] at h'
      refine h'.imp_right fun ⟨hnone, g, hg, hstored⟩ => ⟨hnone, g, ?_, hstored⟩
      rw [List.find?_cons_of_neg (by simpa using Ne.symm hname), hg]
  all := List.forall_mem_cons.2 ⟨by rw [h.find_created hf]; rfl, h.all⟩

theorem mono (h : Provides name stored existing created facts created')
    (hstored : ∀ f id, stored f id → stored' f id) :
    Provides name stored' existing created facts created' where
  kept := h.kept
  new x i hx := (h.new x i hx).imp_right fun ⟨hnone, g, hg, hs⟩ => ⟨hnone, g, hg, hstored g i hs⟩
  all := h.all

end Provides

end NamedIds

/-- Elements for some names have come in. Each of these names stands for what has been there before
or else for the element that was created, and all other names for what they have stood for. -/
theorem Sorted.named_attached {α : Type} {key : α → NodeId} {name : α → String} {t t' : Sorted key}
    {ids ids' : SortedSet NodeId} {existing created : NamedIds} {names : List String}
    {kept : α → α → Prop} (g : t.Grows kept t') (hkept : ∀ a b, kept a b → name b = name a)
    (hids : ∀ id ∈ ids, ∃ a, t.get? id = some a)
    (hexisting : ∀ x, existing.lookup x = t.named name ids x)
    (hcreated : ∀ x id, created.lookup x = some id → ∃ a, t'.get? id = some a ∧ name a = x)
    (hmem : ∀ id, id ∈ ids' ↔ id ∈ ids ∨ ∃ x ∈ names, existing.find created x = some id)
    (x : String) : t'.named name ids' x
      = if x ∈ names then existing.find created x else existing.lookup x := by
  -- what is found under a name has the name
  have hfound : ∀ y id, existing.find created y = some id →
      ∃ a, t'.get? id = some a ∧ name a = y := by
    intro y id hy
    rcases Option.or_eq_some_iff.1 hy with hy | ⟨-, hy⟩
    · rw [hexisting] at hy
      obtain ⟨⟨a, ha, -, rfl⟩, -⟩ := named_eq_some_iff.1 hy
      obtain ⟨b, hb, hk⟩ := g _ _ ha
      exact ⟨b, hb, hkept a b hk⟩
    · exact hcreated y id hy
  -- an element with the name is an old one, or the one that is found
  have hcases : ∀ b ∈ t', key b ∈ ids' → name b = x →
      (∃ a ∈ t, key a = key b ∧ key a ∈ ids ∧ name a = x) ∨
        x ∈ names ∧ existing.find created x = some (key b) := by
    rintro b hb hid rfl
    rcases (hmem _).1 hid with hid | ⟨y, hy, hfind⟩
    · obtain ⟨a, ha⟩ := hids _ hid
      obtain ⟨b', hb', hk⟩ := g _ _ ha
      obtain rfl := Option.some.inj ((get?_key hb).symm.trans hb')
      exact .inl ⟨a, mem_of_get? ha, key_of_get? ha, key_of_get? ha ▸ hid, (hkept a b hk).symm⟩
    · obtain ⟨b', hb', rfl⟩ := hfound y _ hfind
      obtain rfl := Option.some.inj ((get?_key hb).symm.trans hb')
      exact .inr ⟨hy, hfind⟩
  cases hold : existing.lookup x with
  | some id =>
    have hfind : existing.find created x = some id := by
      unfold NamedIds.find
      rw [hold, Option.some_or]
    rw [hfind, ite_self]
    rw [hexisting] at hold
    obtain ⟨⟨a, ha, hid, rfl⟩, hleast⟩ := named_eq_some_iff.1 hold
    obtain ⟨b, hb, hk⟩ := g _ _ ha
    refine named_eq_some_iff.2 ⟨⟨b, hb, (hmem id).2 (.inl hid), hkept a b hk⟩, ?_⟩
    intro c hc hcid hcname
    rcases hcases c hc hcid hcname with ⟨d, hd, hkey, hdid, hdname⟩ | ⟨-, hfind'⟩
    · rw [← hkey]
      exact hleast d hd hdid hdname
    · rw [Option.some.inj (hfind.symm.trans hfind')]
      exact UInt64.le_refl _
  | none =>
    rw [hexisting, named_eq_none_iff] at hold
    refine named_eq_of_only (fun c hc hcid hcname => ?_) fun id hid => ?_
    · rcases hcases c hc hcid hcname with ⟨d, hd, -, hdid, hdname⟩ | ⟨hx, hfind⟩
      · exact absurd hdname (hold d hd hdid)
      · rw [if_pos hx, hfind]
    · by_cases hx : x ∈ names
      · rw [if_pos hx] at hid
        obtain ⟨b, hb, hbname⟩ := hfound x id hid
        exact ⟨b, hb, (hmem id).2 (.inr ⟨x, hx, hid⟩), hbname⟩
      · rw [if_neg hx] at hid
        cases hid

end Cityscape
