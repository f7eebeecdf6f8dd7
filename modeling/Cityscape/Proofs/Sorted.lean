import Cityscape.Sorted
import Mathlib.Data.List.Nodup
import Mathlib.Data.List.Pairwise

/-!
# Laws of sorted containers

A container is pinned down by what it finds under each key. Insertion, union and building from
a list are described by their effect on look-ups and on membership; nothing outside this module
looks at the lists.
-/

namespace Cityscape
namespace Sorted

variable {α κ : Type} [Ord κ] {key : α → κ}

theorem mem_toList {s : Sorted key} {a : α} : a ∈ s.toList ↔ a ∈ s := Iff.rfl

@[simp] theorem not_mem_empty (a : α) : a ∉ (∅ : Sorted key) := List.not_mem_nil

section Pair

variable {β γ : Type} [DecidableEq β] [DecidableEq γ] {f : α → β} {g : α → γ} {b : β} {c : γ}
  {s : Sorted key}

/-- What is looked up by two of its parts is there and has these parts. -/
theorem mem_of_find?_pair {x : α} (h : (s.toList.find? fun x => f x = b ∧ g x = c) = some x) :
    x ∈ s ∧ f x = b ∧ g x = c :=
  ⟨List.mem_of_find?_eq_some h, by simpa using List.find?_some h⟩

theorem find?_pair_eq_none_iff :
    (s.toList.find? fun x => f x = b ∧ g x = c) = none ↔ ∀ x ∈ s, (f x, g x) ≠ (b, c) := by
  rw [List.find?_eq_none]
  simp [mem_toList]

end Pair

variable [Std.TransOrd κ] [Std.LawfulEqOrd κ]

omit [Std.TransOrd κ] in
theorem key_ne_of_lt {a b : α} (h : compare (key a) (key b) = .lt) : key a ≠ key b := by
  intro he
  have hc : compare (key b) (key b) = .eq := Std.ReflCmp.compare_self
  rw [he, hc] at h
  cases h

omit [Std.TransOrd κ] in
/-- Elements with the same key are the same element. -/
theorem eq_of_key_eq {s : Sorted key} {a b : α} (ha : a ∈ s) (hb : b ∈ s)
    (h : key a = key b) : a = b := by
  have hp : s.toList.Pairwise fun x y => key x ≠ key y := s.ascending.imp key_ne_of_lt
  have symm : Std.Symm fun x y : α => key x ≠ key y := ⟨fun _ _ => Ne.symm⟩
  by_contra hab
  exact hp.forall ha hb hab h

variable [DecidableEq κ]

omit [Std.TransOrd κ] in
/-- What is found under a key is the element with that key. -/
theorem get?_eq_some_iff {s : Sorted key} {k : κ} {a : α} :
    s.get? k = some a ↔ a ∈ s ∧ key a = k := by
  constructor
  · intro h
    exact ⟨List.mem_of_find?_eq_some h, by simpa using List.find?_some h⟩
  · rintro ⟨ha, rfl⟩
    have hs : (s.toList.find? fun b => key b = key a).isSome := by
      rw [List.find?_isSome]
      exact ⟨a, ha, by simp⟩
    obtain ⟨b, hb⟩ := Option.isSome_iff_exists.1 hs
    have hk : key b = key a := by simpa using List.find?_some hb
    rw [get?, hb, eq_of_key_eq (List.mem_of_find?_eq_some hb) ha hk]

omit [Std.TransOrd κ] in
theorem get?_key {s : Sorted key} {a : α} (h : a ∈ s) : s.get? (key a) = some a :=
  get?_eq_some_iff.2 ⟨h, rfl⟩

omit [Std.TransOrd κ] in
theorem mem_of_get? {s : Sorted key} {k : κ} {a : α} (h : s.get? k = some a) : a ∈ s :=
  (get?_eq_some_iff.1 h).1

omit [Std.TransOrd κ] in
theorem key_of_get? {s : Sorted key} {k : κ} {a : α} (h : s.get? k = some a) : key a = k :=
  (get?_eq_some_iff.1 h).2

omit [Std.TransOrd κ] [Std.LawfulEqOrd κ] in
theorem get?_eq_none_iff {s : Sorted key} {k : κ} :
    s.get? k = none ↔ ∀ a ∈ s, key a ≠ k := by
  unfold get?
  rw [List.find?_eq_none]
  simp [mem_toList]

omit [Std.TransOrd κ] [DecidableEq κ] in
theorem nodup_of_ascending {l : List α}
    (h : l.Pairwise fun a b => compare (key a) (key b) = .lt) : l.Nodup :=
  h.imp fun hab he => key_ne_of_lt hab (congrArg key he)

omit [DecidableEq κ] in
/-- Ascending lists with the same elements are the same. -/
theorem eq_of_ascending {l l' : List α}
    (h : l.Pairwise fun a b => compare (key a) (key b) = .lt)
    (h' : l'.Pairwise fun a b => compare (key a) (key b) = .lt) (hmem : ∀ a, a ∈ l ↔ a ∈ l') :
    l = l' := by
  refine List.Perm.eq_of_pairwise (fun a b _ _ hab hba => ?_) h h'
    ((List.perm_ext_iff_of_nodup (nodup_of_ascending h) (nodup_of_ascending h')).2 hmem)
  exact absurd hba (Std.OrientedCmp.not_lt_of_lt hab)

/-- Containers that find the same are the same. -/
theorem ext_get? {s t : Sorted key} (h : ∀ k, s.get? k = t.get? k) : s = t := by
  refine ext (eq_of_ascending s.ascending t.ascending fun a => ?_)
  have hs : a ∈ s.toList ↔ s.get? (key a) = some a := by simp [get?_eq_some_iff, mem_toList]
  have ht : a ∈ t.toList ↔ t.get? (key a) = some a := by simp [get?_eq_some_iff, mem_toList]
  rw [hs, ht, h]

omit [DecidableEq κ] in
/-- What is filtered out of two containers is the same if it has the same elements. -/
theorem filter_eq {s t : Sorted key} {P : α → Bool} (h : ∀ a, P a = true → (a ∈ s ↔ a ∈ t)) :
    s.toList.filter P = t.toList.filter P := by
  refine eq_of_ascending (s.ascending.filter P) (t.ascending.filter P) fun a => ?_
  rw [List.mem_filter, List.mem_filter, and_congr_left_iff]
  exact h a

omit [Std.TransOrd κ] [Std.LawfulEqOrd κ] [DecidableEq κ] in
/-- The only element of its kind is found. -/
theorem find?_of_unique {s : Sorted key} {P : α → Bool} {x : α} (hx : x ∈ s) (hP : P x = true)
    (h : ∀ y ∈ s, P y = true → y = x) : s.toList.find? P = some x := by
  cases hfind : s.toList.find? P with
  | none =>
    rw [List.find?_eq_none] at hfind
    exact absurd hP (hfind x hx)
  | some y => rw [h y (List.mem_of_find?_eq_some hfind) (List.find?_some hfind)]

theorem get?_insert (s : Sorted key) (x : α) (k : κ) :
    (s.insert x).get? k = if k = key x then some x else s.get? k := by
  by_cases hk : k = key x
  · rw [if_pos hk, hk, get?_insert_self]
  · rw [if_neg hk, get?_insert_of_ne hk]

theorem mem_insert {s : Sorted key} {x a : α} :
    a ∈ s.insert x ↔ a = x ∨ a ∈ s ∧ key a ≠ key x := by
  have h := @get?_eq_some_iff _ _ _ _ _ _ (s.insert x) (key a) a
  have hs := @get?_eq_some_iff _ _ _ _ _ _ s (key a) a
  rw [get?_insert] at h
  by_cases hk : key a = key x
  · rw [if_pos hk] at h
    simp only [Option.some.injEq, and_true] at h
    simp [← h, hk, eq_comm]
  · rw [if_neg hk, hs] at h
    have hne : a ≠ x := fun e => hk (congrArg key e)
    simpa [hk, hne] using h.symm

theorem mem_insert_self (s : Sorted key) (x : α) : x ∈ s.insert x := mem_insert.2 (.inl rfl)

theorem insert_eq_self {s : Sorted key} {x : α} (h : x ∈ s) : s.insert x = s := by
  refine ext_get? fun k => ?_
  rw [get?_insert]
  split
  · rename_i hk
    rw [hk, get?_key h]
  · rfl

/-- Of two insertions under one key only the second one counts. -/
theorem insert_insert {s : Sorted key} {x y : α} (h : key x = key y) :
    (s.insert x).insert y = s.insert y := by
  refine ext_get? fun k => ?_
  rw [get?_insert, get?_insert, get?_insert]
  split
  · rfl
  · rename_i hk
    rw [if_neg (fun e => hk (e.trans h))]

/-- Insertions under different keys may change places. -/
theorem insert_comm {s : Sorted key} {x y : α} (h : key x ≠ key y) :
    (s.insert x).insert y = (s.insert y).insert x := by
  refine ext_get? fun k => ?_
  rw [get?_insert, get?_insert, get?_insert, get?_insert]
  by_cases hx : k = key x
  · rw [if_neg (fun hy => h (hx.symm.trans hy)), if_pos hx, if_pos hx]
  · rw [if_neg hx, if_neg hx]

theorem modify_of_get? {s : Sorted key} {k : κ} {x : α} {f : α → α} (h : s.get? k = some x) :
    s.modify k f = s.insert (f x) := by
  unfold modify
  rw [h]

/-- Changing an element that has just been inserted is inserting the changed one. -/
theorem modify_insert {s : Sorted key} {x : α} {f : α → α} (hf : key (f x) = key x) :
    (s.insert x).modify (key x) f = s.insert (f x) := by
  rw [modify_of_get? (get?_insert_self s x)]
  exact insert_insert hf.symm

theorem forall_insert {s : Sorted key} {y : α} {P : α → Prop} (hy : P y) (h : ∀ x ∈ s, P x) :
    ∀ x ∈ s.insert y, P x := by
  intro x hx
  rcases mem_insert.1 hx with rfl | ⟨hx, -⟩
  · exact hy
  · exact h x hx

/-- If elements with the same key are the same, the order of insertion does not matter. -/
theorem mem_insertMany_of_functional {l : List α} :
    ∀ {s : Sorted key}, (∀ x, x ∈ s ∨ x ∈ l → ∀ y, y ∈ s ∨ y ∈ l → key x = key y → x = y) →
      ∀ {a : α}, a ∈ s.insertMany l ↔ a ∈ s ∨ a ∈ l := by
  induction l with
  | nil =>
    intro s _ a
    exact ⟨.inl, fun h => h.resolve_right List.not_mem_nil⟩
  | cons z l ih =>
    intro s hfun a
    have hold : ∀ x, x ∈ s.insert z ∨ x ∈ l → x ∈ s ∨ x ∈ z :: l := by
      intro x hx
      rcases hx with hx | hx
      · rcases mem_insert.1 hx with rfl | ⟨hx, -⟩
        · exact .inr List.mem_cons_self
        · exact .inl hx
      · exact .inr (List.mem_cons_of_mem z hx)
    show a ∈ (s.insert z).insertMany l ↔ _
    rw [ih fun x hx y hy => hfun x (hold x hx) y (hold y hy)]
    refine ⟨hold a, fun ha => ?_⟩
    by_cases hz : a = z
    · exact .inl (mem_insert.2 (.inl hz))
    · rcases ha with ha | ha
      · refine .inl (mem_insert.2 (.inr ⟨ha, fun hk => hz ?_⟩))
        exact hfun a (.inl ha) z (.inr List.mem_cons_self) hk
      · exact .inr ((List.mem_cons.1 ha).resolve_left hz)

/-- Elements whose keys do not come again stay. -/
theorem mem_insertMany_of_mem {l : List α} {a : α} : ∀ {s : Sorted key}, a ∈ s →
    (∀ x ∈ l, key x = key a → x = a) → a ∈ s.insertMany l := by
  induction l with
  | nil => exact fun ha _ => ha
  | cons x l ih =>
    intro s ha hl
    obtain ⟨hx, hl⟩ := List.forall_mem_cons.1 hl
    refine ih (mem_insert.2 ?_) hl
    by_cases hkey : key x = key a
    · exact .inl (hx hkey).symm
    · exact .inr ⟨ha, Ne.symm hkey⟩

theorem mem_insertMany_of_mem_list {l : List α} (hfun : ∀ x ∈ l, ∀ y ∈ l, key x = key y → x = y)
    {a : α} (ha : a ∈ l) : ∀ {s : Sorted key}, a ∈ s.insertMany l := by
  induction l with
  | nil => cases ha
  | cons x l ih =>
    intro s
    have hfun' : ∀ x ∈ l, ∀ y ∈ l, key x = key y → x = y := fun y hy z hz =>
      hfun y (List.mem_cons_of_mem x hy) z (List.mem_cons_of_mem x hz)
    show a ∈ (s.insert x).insertMany l
    rcases List.mem_cons.1 ha with rfl | hmem
    · exact mem_insertMany_of_mem (mem_insert_self s a) fun y hy =>
        hfun y (List.mem_cons_of_mem a hy) a List.mem_cons_self
    · exact ih hfun' hmem

theorem insertMany_eq_self {l : List α} {s : Sorted key} (h : ∀ x ∈ l, x ∈ s) :
    s.insertMany l = s := by
  induction l with
  | nil => rfl
  | cons x l ih =>
    obtain ⟨hx, hl⟩ := List.forall_mem_cons.1 h
    show (s.insert x).insertMany l = s
    rw [insert_eq_self hx, ih hl]

theorem mem_ofList_of_functional {l : List α} (hfun : ∀ x ∈ l, ∀ y ∈ l, key x = key y → x = y)
    {a : α} : a ∈ (ofList l : Sorted key) ↔ a ∈ l := by
  unfold ofList
  rw [mem_insertMany_of_functional]
  · exact ⟨fun h => h.resolve_left (not_mem_empty a), .inr⟩
  · intro x hx y hy
    exact hfun x (hx.resolve_left (not_mem_empty x)) y (hy.resolve_left (not_mem_empty y))

theorem ofList_congr {l l' : List α} (hfun : ∀ x ∈ l, ∀ y ∈ l, key x = key y → x = y)
    (hmem : ∀ a, a ∈ l ↔ a ∈ l') : (ofList l : Sorted key) = ofList l' := by
  refine ext (eq_of_ascending (ofList l).ascending (ofList l').ascending fun a => ?_)
  have hfun' : ∀ x ∈ l', ∀ y ∈ l', key x = key y → x = y :=
    fun x hx y hy => hfun x ((hmem x).2 hx) y ((hmem y).2 hy)
  rw [mem_toList, mem_toList, mem_ofList_of_functional hfun, mem_ofList_of_functional hfun', hmem]

/-- A container is made again from its elements. -/
theorem ofList_toList (s : Sorted key) : (ofList s.toList : Sorted key) = s := by
  refine ext (eq_of_ascending (ofList s.toList).ascending s.ascending fun a => ?_)
  exact mem_ofList_of_functional fun x hx y hy => eq_of_key_eq hx hy

section InsertMany

variable {s : Sorted key} {l : List α} {x : α} {k : κ}

theorem get?_insertMany_of_ne (h : ∀ y ∈ l, key y ≠ k) : (s.insertMany l).get? k = s.get? k := by
  induction l generalizing s with
  | nil => rfl
  | cons y l ih =>
    obtain ⟨hy, hl⟩ := List.forall_mem_cons.1 h
    show ((s.insert y).insertMany l).get? k = _
    rw [ih hl, get?_insert_of_ne (Ne.symm hy)]

theorem get?_insertMany_of_mem (hl : (l.map key).Nodup) (hx : x ∈ l) :
    (s.insertMany l).get? (key x) = some x :=
  get?_key (mem_insertMany_of_mem_list (fun _ hy _ hz => List.inj_on_of_nodup_map hl hy hz) hx)

omit [DecidableEq κ] in
theorem insertMany_append {l' : List α} : s.insertMany (l ++ l') = (s.insertMany l).insertMany l' :=
  List.foldl_append

theorem insert_insertMany (h : ∀ y ∈ l, key y ≠ key x) :
    (s.insertMany l).insert x = (s.insert x).insertMany l := by
  induction l generalizing s with
  | nil => rfl
  | cons y l ih =>
    obtain ⟨hy, hl⟩ := List.forall_mem_cons.1 h
    show ((s.insert y).insertMany l).insert x = ((s.insert x).insert y).insertMany l
    rw [ih hl, insert_comm hy]

/-- Of two insertions under one key only the second one counts, whatever comes in between. -/
theorem insert_insertMany_insert {y : α} (h : ∀ z ∈ l, key z ≠ key x) (hy : key x = key y) :
    ((s.insert x).insertMany l).insert y = (s.insertMany l).insert y := by
  rw [insert_insertMany (hy ▸ h), insert_insertMany (hy ▸ h), insert_insert hy]

theorem mem_keys_insert :
    k ∈ (s.insert x).toList.map key ↔ k = key x ∨ k ∈ s.toList.map key := by
  simp only [List.mem_map, mem_toList, mem_insert]
  constructor
  · rintro ⟨a, rfl | ⟨ha, -⟩, rfl⟩
    · exact .inl rfl
    · exact .inr ⟨a, ha, rfl⟩
  · rintro (rfl | ⟨a, ha, rfl⟩)
    · exact ⟨x, .inl rfl, rfl⟩
    · by_cases hkey : key a = key x
      · exact ⟨x, .inl rfl, hkey.symm⟩
      · exact ⟨a, .inr ⟨ha, hkey⟩, rfl⟩

theorem mem_keys_insertMany :
    k ∈ (s.insertMany l).toList.map key ↔ k ∈ s.toList.map key ∨ k ∈ l.map key := by
  induction l generalizing s with
  | nil => exact (or_iff_left List.not_mem_nil).symm
  | cons y l ih =>
    show k ∈ ((s.insert y).insertMany l).toList.map key ↔ _
    rw [ih, mem_keys_insert, List.map_cons, List.mem_cons, or_comm (a := k = key y), or_assoc]

/-- A container has the keys of the list that it is made from. -/
theorem mem_keys_ofList : k ∈ (ofList l : Sorted key).toList.map key ↔ k ∈ l.map key :=
  mem_keys_insertMany.trans (or_iff_right List.not_mem_nil)

/-- Elements with keys of their own come to those that are there. -/
theorem perm_insertMany (hl : (l.map key).Nodup) (hs : ∀ y ∈ l, s.get? (key y) = none) :
    (s.insertMany l).toList.Perm (s.toList ++ l) := by
  have hnew : ∀ y ∈ l, ∀ z ∈ s, key z ≠ key y := fun y hy => get?_eq_none_iff.1 (hs y hy)
  have hsame : ∀ y ∈ l, ∀ z ∈ l, key y = key z → y = z :=
    fun y hy z hz => List.inj_on_of_nodup_map hl hy hz
  refine (List.perm_ext_iff_of_nodup (nodup_of_ascending (s.insertMany l).ascending) ?_).2
    fun a => ?_
  · refine List.nodup_append.2 ⟨nodup_of_ascending s.ascending, hl.of_map, ?_⟩
    rintro z hz y hy rfl
    exact hnew z hy z hz rfl
  · rw [List.mem_append]
    refine mem_insertMany_of_functional fun y hy z hz hkey => ?_
    rcases hy with hy | hy <;> rcases hz with hz | hz
    · exact eq_of_key_eq hy hz hkey
    · exact absurd hkey (hnew z hz y hy)
    · exact absurd hkey.symm (hnew y hy z hz)
    · exact hsame y hy z hz hkey

end InsertMany

/-! ## Unique features -/

/-- No two elements have the same feature. -/
def UniqueBy {β : Type} (feature : α → β) (s : Sorted key) : Prop :=
  ∀ x ∈ s, ∀ y ∈ s, feature x = feature y → x = y

namespace UniqueBy

variable {β : Type} {feature : α → β} {s : Sorted key}

/-- An element with a new feature may come in. -/
theorem insert_new (h : s.UniqueBy feature) {y : α} (hy : ∀ x ∈ s, feature x ≠ feature y) :
    (s.insert y).UniqueBy feature := by
  intro a ha b hb hab
  rcases mem_insert.1 ha with rfl | ⟨ha', -⟩ <;> rcases mem_insert.1 hb with rfl | ⟨hb', -⟩
  · rfl
  · exact absurd hab.symm (hy b hb')
  · exact absurd hab (hy a ha')
  · exact h a ha' b hb' hab

/-- An element may be replaced by one with the same feature. -/
theorem insert_same (h : s.UniqueBy feature) {x y : α} (hx : x ∈ s) (hk : key y = key x)
    (hf : feature y = feature x) : (s.insert y).UniqueBy feature := by
  have hold : ∀ a ∈ s, key a ≠ key y → feature a ≠ feature y := by
    intro a ha hne he
    exact hne ((congrArg key (h a ha x hx (he.trans hf))).trans hk.symm)
  intro a ha b hb hab
  rcases mem_insert.1 ha with rfl | ⟨ha', hka⟩ <;> rcases mem_insert.1 hb with rfl | ⟨hb', hkb⟩
  · rfl
  · exact absurd hab.symm (hold b hb' hkb)
  · exact absurd hab (hold a ha' hka)
  · exact h a ha' b hb' hab

omit [Std.TransOrd κ] [Std.LawfulEqOrd κ] [DecidableEq κ] in
/-- What is looked up by two parts that make an element unique. -/
theorem find?_eq_some_iff {γ : Type} [DecidableEq β] [DecidableEq γ] {f : α → β} {g : α → γ}
    (h : s.UniqueBy fun x => (f x, g x)) {b : β} {c : γ} {x : α} :
    (s.toList.find? fun x => f x = b ∧ g x = c) = some x ↔ x ∈ s ∧ f x = b ∧ g x = c := by
  refine ⟨mem_of_find?_pair, ?_⟩
  rintro ⟨hx, rfl, rfl⟩
  refine find?_of_unique hx (by simp) fun y hy hkey => h y hy x hx ?_
  simpa using hkey

/-- What is looked up by two parts that make an element unique, after an insertion. -/
theorem find?_insert {γ : Type} [DecidableEq β] [DecidableEq γ] {f : α → β} {g : α → γ}
    (h : s.UniqueBy fun x => (f x, g x)) {y : α}
    (hy : ∀ x ∈ s, key x = key y ↔ (f x, g x) = (f y, g y)) (b : β) (c : γ) :
    ((s.insert y).toList.find? fun x => f x = b ∧ g x = c)
      = if (f y, g y) = (b, c) then some y else s.toList.find? fun x => f x = b ∧ g x = c := by
  have holds : ∀ x, decide (f x = b ∧ g x = c) = true ↔ (f x, g x) = (b, c) := by simp
  by_cases hkey : (f y, g y) = (b, c)
  · rw [if_pos hkey]
    refine find?_of_unique (mem_insert_self s y) ((holds y).2 hkey) fun z hz hP => ?_
    rcases mem_insert.1 hz with rfl | ⟨hz, hne⟩
    · rfl
    · exact absurd ((hy z hz).2 (((holds z).1 hP).trans hkey.symm)) hne
  · rw [if_neg hkey]
    have hold : ∀ z ∈ s.insert y, (f z, g z) = (b, c) → z ∈ s := by
      intro z hz hzkey
      rcases mem_insert.1 hz with rfl | ⟨hz, -⟩
      · exact absurd hzkey hkey
      · exact hz
    cases hfind : s.toList.find? fun x => f x = b ∧ g x = c with
    | none =>
      rw [find?_pair_eq_none_iff] at hfind ⊢
      exact fun z hz hzkey => hfind z (hold z hz hzkey) hzkey
    | some x =>
      obtain ⟨hx, hxkey⟩ : x ∈ s ∧ (f x, g x) = (b, c) := by
        obtain ⟨hx, rfl, rfl⟩ := mem_of_find?_pair hfind
        exact ⟨hx, rfl⟩
      have hne : key x ≠ key y := fun he => hkey (((hy x hx).1 he).symm.trans hxkey)
      refine find?_of_unique (mem_insert.2 (.inr ⟨hx, hne⟩)) ((holds x).2 hxkey) fun z hz hP => ?_
      exact h z (hold z hz ((holds z).1 hP)) x hx (((holds z).1 hP).trans hxkey.symm)

/-- What is looked up by two parts, after an element has been replaced by one with the same. -/
theorem find?_replace {γ : Type} [DecidableEq β] [DecidableEq γ] {f : α → β} {g : α → γ}
    (h : s.UniqueBy fun x => (f x, g x)) {x y : α} (hx : x ∈ s) (hk : key y = key x)
    (hf : (f y, g y) = (f x, g x)) (b : β) (c : γ) :
    ((s.insert y).toList.find? fun x => f x = b ∧ g x = c)
      = if (f y, g y) = (b, c) then some y else s.toList.find? fun x => f x = b ∧ g x = c := by
  refine h.find?_insert (fun z hz => ?_) b c
  rw [hk, hf]
  exact ⟨fun he => eq_of_key_eq hz hx he ▸ rfl, fun he => h z hz x hx he ▸ rfl⟩

end UniqueBy

end Sorted

/-! ## Sets -/

namespace SortedSet

variable {α : Type} [Ord α] [Std.TransOrd α] [Std.LawfulEqOrd α] [DecidableEq α]

omit [Std.TransOrd α] in
theorem contains_iff {s : SortedSet α} {a : α} : s.contains a = true ↔ a ∈ s := by
  unfold contains Sorted.hasKey
  rw [Option.isSome_iff_exists]
  constructor
  · rintro ⟨b, hb⟩
    have := Sorted.key_of_get? hb
    exact this ▸ Sorted.mem_of_get? hb
  · exact fun h => ⟨a, Sorted.get?_key h⟩

theorem mem_insert {s : SortedSet α} {x a : α} : a ∈ s.insert x ↔ a = x ∨ a ∈ s := by
  rw [Sorted.mem_insert]
  by_cases h : a = x <;> simp [h]

/-- What holds of the new element and of the old ones holds of all. -/
theorem forall_mem_insert {s : SortedSet α} {x : α} {p : α → Prop} (hx : p x)
    (h : ∀ a ∈ s, p a) : ∀ a ∈ s.insert x, p a := by
  intro a ha
  rcases mem_insert.1 ha with rfl | ha
  · exact hx
  · exact h a ha

theorem mem_insertMany {s : SortedSet α} {l : List α} {a : α} :
    a ∈ s.insertMany l ↔ a ∈ s ∨ a ∈ l := by
  unfold Sorted.insertMany
  induction l generalizing s with
  | nil => simp
  | cons x l ih =>
    rw [List.foldl_cons, ih, mem_insert, List.mem_cons, or_comm (a := a = x), or_assoc]

theorem mem_union {s t : SortedSet α} {a : α} : a ∈ s.union t ↔ a ∈ s ∨ a ∈ t :=
  mem_insertMany

theorem mem_ofList {l : List α} {a : α} : a ∈ (Sorted.ofList l : SortedSet α) ↔ a ∈ l := by
  unfold Sorted.ofList
  rw [mem_insertMany]
  simp

/-- Sets with the same elements are the same. -/
theorem ext_mem {s t : SortedSet α} (h : ∀ a, a ∈ s ↔ a ∈ t) : s = t := by
  refine Sorted.ext_get? fun k => Option.ext fun a => ?_
  rw [Sorted.get?_eq_some_iff, Sorted.get?_eq_some_iff, h]

theorem union_eq_left {s t : SortedSet α} (h : ∀ a ∈ t, a ∈ s) : s.union t = s :=
  ext_mem fun a => by
    rw [mem_union]
    exact ⟨fun ha => ha.elim id (h a), .inl⟩

theorem insert_eq_self {s : SortedSet α} {x : α} (h : x ∈ s) : s.insert x = s :=
  Sorted.insert_eq_self h

end SortedSet

/-! ## Maps -/

namespace SortedMap

variable {κ α : Type} [Ord κ] [Std.TransOrd κ] [Std.LawfulEqOrd κ] [DecidableEq κ]

omit [Std.TransOrd κ] [Std.LawfulEqOrd κ] in
theorem isSome_find? (m : SortedMap κ α) (k : κ) : (m.find? k).isSome = m.hasKey k :=
  Option.isSome_map

theorem find?_put (m : SortedMap κ α) (k : κ) (v : α) (j : κ) :
    (m.put k v).find? j = if j = k then some v else m.find? j := by
  unfold find? put
  rw [Sorted.get?_insert]
  by_cases hj : j = k
  · rw [if_pos hj, if_pos hj]
    rfl
  · rw [if_neg hj, if_neg hj]

theorem find?_putNew (m : SortedMap κ α) (k : κ) (v : α) (j : κ) :
    (m.putNew k v).find? j = if j = k then some ((m.find? k).getD v) else m.find? j := by
  unfold putNew Sorted.insertNew
  have hkey := m.isSome_find? k
  cases hfind : m.find? k with
  | none =>
    rw [hfind] at hkey
    rw [← hkey]
    exact find?_put m k v j
  | some w =>
    rw [hfind] at hkey
    rw [← hkey]
    by_cases hj : j = k
    · rw [if_pos hj, hj]
      exact hfind
    · rw [if_neg hj]
      rfl

theorem find?_change (m : SortedMap κ α) (k : κ) (f : α → α) (j : κ) :
    (m.change k f).find? j = if j = k then (m.find? k).map f else m.find? j := by
  unfold change Sorted.modify
  cases hget : m.get? k with
  | none =>
    have hnone : m.find? k = none := by rw [find?, hget, Option.map_none]
    by_cases hj : j = k
    · rw [if_pos hj, hj, hnone]
      rfl
    · rw [if_neg hj]
  | some p =>
    have hsome : m.find? k = some p.2 := by rw [find?, hget, Option.map_some]
    have hkey : p.1 = k := Sorted.key_of_get? hget
    rw [hsome, Option.map_some, ← hkey]
    exact find?_put m p.1 (f p.2) j

omit [Std.TransOrd κ] in
theorem find?_iff_mem {m : SortedMap κ α} {k : κ} {v : α} : m.find? k = some v ↔ (k, v) ∈ m := by
  unfold find?
  constructor
  · intro h
    obtain ⟨p, hp, rfl⟩ := Option.map_eq_some_iff.1 h
    have hkey : p.1 = k := Sorted.key_of_get? hp
    exact hkey ▸ Sorted.mem_of_get? hp
  · intro h
    have hget : m.get? k = some (k, v) := Sorted.get?_key h
    rw [hget, Option.map_some]

theorem putNew_eq_self {m : SortedMap κ α} {k : κ} {v : α} (h : (m.find? k).isSome) :
    m.putNew k v = m :=
  if_pos ((m.isSome_find? k).symm.trans h)

theorem change_eq_self {m : SortedMap κ α} {k : κ} {f : α → α}
    (h : ∀ a, m.find? k = some a → f a = a) : m.change k f = m := by
  unfold change Sorted.modify
  split
  · rename_i p hp
    have hfind : m.find? k = some p.2 := by rw [find?, hp, Option.map_some]
    have hsame : (p.1, f p.2) = p := Prod.ext rfl (h p.2 hfind)
    exact (congrArg m.insert hsame).trans (Sorted.insert_eq_self (Sorted.mem_of_get? hp))
  · rfl

end SortedMap

/-! ## Sorting -/

theorem pairwise_mergeSort {α : Type} {cmp : α → α → Ordering} [Std.TransCmp cmp] (l : List α) :
    (l.mergeSort fun a b => (cmp a b).isLE).Pairwise fun a b => (cmp a b).isLE := by
  refine List.pairwise_mergeSort (fun _ _ _ => Std.TransCmp.isLE_trans) (fun a b => ?_) l
  rw [Bool.or_eq_true]
  by_cases h : (cmp a b).isLE
  · exact .inl h
  · exact .inr (Ordering.isLE_of_eq_lt (Std.OrientedCmp.lt_of_not_isLE h))

/-- Lists with the same elements are sorted to the same list if the order tells all elements
apart. -/
theorem mergeSort_congr {α : Type} {cmp : α → α → Ordering} [Std.TransCmp cmp] {l l' : List α}
    (hperm : l.Perm l') (heq : ∀ a ∈ l, ∀ b ∈ l, cmp a b = .eq → a = b) :
    (l.mergeSort fun a b => (cmp a b).isLE) = l'.mergeSort fun a b => (cmp a b).isLE := by
  apply List.Perm.eq_of_pairwise _ (pairwise_mergeSort l) (pairwise_mergeSort l')
  · exact (List.mergeSort_perm _ _).trans (hperm.trans (List.mergeSort_perm _ _).symm)
  · intro a b ha hb hab hba
    exact heq a (List.mem_mergeSort.1 ha) b (hperm.mem_iff.2 (List.mem_mergeSort.1 hb))
      (Std.OrientedCmp.isLE_antisymm hab hba)

/-! ## Picking from a list -/

/-- What is taken ends before the first member that does not belong to it. -/
theorem takeWhile_append_cons {α : Type} {p : α → Bool} {before rest : List α} {a : α}
    (hbefore : ∀ x ∈ before, p x = true) (ha : ¬p a = true) :
    (before ++ a :: rest).takeWhile p = before := by
  rw [List.takeWhile_append_of_pos hbefore, List.takeWhile_cons_of_neg ha, List.append_nil]

/-- Picking one of two again and again picks one of all. -/
theorem mem_of_foldl_pick {α : Type} {pick : α → α → α} (h : ∀ x y, pick x y = x ∨ pick x y = y)
    (l : List α) (x : α) : l.foldl pick x ∈ x :: l := by
  induction l generalizing x with
  | nil => exact List.mem_singleton.2 rfl
  | cons y l ih =>
    rw [List.foldl_cons]
    rcases List.mem_cons.1 (ih (pick x y)) with he | hl
    · rw [he]
      rcases h x y with hx | hy
      · rw [hx]
        exact List.mem_cons_self
      · rw [hy]
        exact List.mem_cons_of_mem _ List.mem_cons_self
    · exact List.mem_cons_of_mem _ (List.mem_cons_of_mem _ hl)

/-- Picking the lesser one of two again and again ends at the least one of all. -/
theorem foldl_pick_least {α : Type} {r : α → α → Prop} {pick : α → α → α} (hrefl : ∀ a, r a a)
    (htrans : ∀ a b c, r a b → r b c → r a c)
    (hpick : ∀ a b, r (pick a b) a ∧ r (pick a b) b) (l : List α) (x : α) :
    ∀ y ∈ x :: l, r (l.foldl pick x) y := by
  induction l generalizing x with
  | nil =>
    intro y hy
    rw [List.mem_singleton.1 hy]
    exact hrefl x
  | cons z l ih =>
    intro y hy
    have hnext := ih (pick x z) (pick x z) List.mem_cons_self
    rcases List.mem_cons.1 hy with rfl | hy
    · exact htrans _ _ _ hnext (hpick y z).1
    rcases List.mem_cons.1 hy with rfl | hy
    · exact htrans _ _ _ hnext (hpick x y).2
    · exact ih (pick x z) y (List.mem_cons_of_mem _ hy)

/-- Only one member of a list comes before all others. -/
theorem eq_of_first {α : Type} {r : α → α → Prop} (hasymm : ∀ a b, r a b → ¬r b a) {l : List α}
    {a b : α} (ha : a ∈ l) (hb : b ∈ l) (hfirst : ∀ x ∈ l, x ≠ a → r a x)
    (hfirst' : ∀ x ∈ l, x ≠ b → r b x) : a = b := by
  by_contra hne
  have hab := hfirst b hb (Ne.symm hne)
  exact hasymm a b hab (hfirst' a ha hne)

end Cityscape
