/-!
# `Sorted`: lists in ascending order of a key

One container serves the whole library. A set is a list of values sorted by themselves
(`SortedSet`), a map a list of pairs sorted by their first component (`SortedMap`), and a
table of records is sorted by the records' own id. The list holds at most one element per
key, so two containers with the same elements are equal.

Main statements: inserting makes the new element the one found under its key
(`get?_insert_self`) and leaves every other key as it was (`get?_insert_of_ne`).
-/

namespace Cityscape

/-- A list whose elements stand in strictly ascending order of `key`. -/
structure Sorted {α κ : Type} [Ord κ] (key : α → κ) where
  /-- The elements, least key first. -/
  toList : List α
  /-- Every element has a smaller key than all that follow it. -/
  ascending : toList.Pairwise fun a b => compare (key a) (key b) = .lt

namespace Sorted

variable {α κ : Type} [Ord κ] {key : α → κ}

theorem ext {s t : Sorted key} (h : s.toList = t.toList) : s = t := by
  cases s; cases t; cases h; rfl

instance [DecidableEq α] : DecidableEq (Sorted key) := fun s t =>
  if h : s.toList = t.toList then isTrue (ext h) else isFalse fun e => h (e ▸ rfl)

/-- No elements. -/
def empty : Sorted key := ⟨[], .nil⟩

instance : EmptyCollection (Sorted key) := ⟨empty⟩

instance : Inhabited (Sorted key) := ⟨empty⟩

instance : Membership α (Sorted key) := ⟨fun s a => a ∈ s.toList⟩

/-- Whether there are no elements. -/
def isEmpty (s : Sorted key) : Bool := s.toList.isEmpty

/-- How many elements there are. -/
def size (s : Sorted key) : Nat := s.toList.length

/-- The element with key `k`. -/
def get? [DecidableEq κ] (s : Sorted key) (k : κ) : Option α :=
  s.toList.find? fun a => key a = k

/-- Whether some element has key `k`. -/
def hasKey [DecidableEq κ] (s : Sorted key) (k : κ) : Bool := (s.get? k).isSome

/-- The element with the greatest key. -/
def last? (s : Sorted key) : Option α := s.toList.getLast?

/-! ## Insertion -/

/-- Puts `x` in its place in an ascending list, instead of an element with the same key. -/
def insertList (key : α → κ) (x : α) : List α → List α
  | [] => [x]
  | y :: ys =>
    match compare (key x) (key y) with
    | .lt => x :: y :: ys
    | .eq => x :: ys
    | .gt => y :: insertList key x ys

theorem mem_insertList {x a : α} {l : List α} (h : a ∈ insertList key x l) :
    a = x ∨ a ∈ l := by
  induction l with
  | nil => simpa [insertList] using h
  | cons y ys ih =>
    unfold insertList at h
    split at h
    · simpa using h
    · rcases List.mem_cons.1 h with h | h
      · exact .inl h
      · exact .inr (List.mem_cons_of_mem y h)
    · rcases List.mem_cons.1 h with h | h
      · exact .inr (h ▸ List.mem_cons_self)
      · exact (ih h).imp_right (List.mem_cons_of_mem y)

variable [Std.TransOrd κ] [Std.LawfulEqOrd κ]

theorem ascending_insertList (x : α) {l : List α}
    (h : l.Pairwise fun a b => compare (key a) (key b) = .lt) :
    (insertList key x l).Pairwise fun a b => compare (key a) (key b) = .lt := by
  induction l with
  | nil => simp [insertList]
  | cons y ys ih =>
    obtain ⟨hy, hys⟩ := List.pairwise_cons.1 h
    unfold insertList
    split
    · rename_i hlt
      refine List.pairwise_cons.2 ⟨fun a ha => ?_, h⟩
      rcases List.mem_cons.1 ha with rfl | ha
      · exact hlt
      · exact Std.TransCmp.lt_trans hlt (hy a ha)
    · rename_i heq
      have e : key x = key y := Std.LawfulEqCmp.eq_of_compare heq
      exact List.pairwise_cons.2 ⟨fun a ha => e ▸ hy a ha, hys⟩
    · rename_i hgt
      refine List.pairwise_cons.2 ⟨fun a ha => ?_, ih hys⟩
      rcases mem_insertList ha with rfl | ha
      · exact Std.OrientedCmp.lt_of_gt hgt
      · exact hy a ha

/-- Adds `x`, instead of an element with the same key. -/
def insert (s : Sorted key) (x : α) : Sorted key :=
  ⟨insertList key x s.toList, ascending_insertList x s.ascending⟩

/-- Adds the elements of a list one after another; of equal keys the last one stays. -/
def insertMany (s : Sorted key) (l : List α) : Sorted key := l.foldl insert s

/-- The elements of a list; of equal keys the last one stays. -/
def ofList (l : List α) : Sorted key := insertMany ∅ l

variable [DecidableEq κ]

/-- Adds `x` unless its key is taken. -/
def insertNew (s : Sorted key) (x : α) : Sorted key :=
  if s.hasKey (key x) then s else s.insert x

/-- Changes the element with key `k`, if there is one, by a function that keeps keys. -/
def modify (s : Sorted key) (k : κ) (f : α → α) : Sorted key :=
  match s.get? k with
  | some a => s.insert (f a)
  | none => s

omit [Std.TransOrd κ] in
theorem find?_insertList_self (x : α) (l : List α) :
    (insertList key x l).find? (fun a => key a = key x) = some x := by
  induction l with
  | nil => simp [insertList]
  | cons y ys ih =>
    unfold insertList
    split
    · simp
    · simp
    · rename_i hgt
      have hne : key y ≠ key x := fun e => by simp [e, Std.ReflCmp.compare_self] at hgt
      simp [hne, ih]

omit [Std.TransOrd κ] in
theorem find?_insertList_of_ne {x : α} {k : κ} (hk : k ≠ key x) (l : List α) :
    (insertList key x l).find? (fun a => key a = k) = l.find? (fun a => key a = k) := by
  induction l with
  | nil => simp [insertList, Ne.symm hk]
  | cons y ys ih =>
    unfold insertList
    split
    · simp [List.find?, Ne.symm hk]
    · rename_i heq
      have e : key x = key y := Std.LawfulEqCmp.eq_of_compare heq
      have hy : key y ≠ k := fun h => hk (h ▸ e.symm)
      simp [Ne.symm hk, hy]
    · by_cases hy : key y = k <;> simp [hy, ih]

@[simp] theorem get?_insert_self (s : Sorted key) (x : α) :
    (s.insert x).get? (key x) = some x :=
  find?_insertList_self x s.toList

theorem get?_insert_of_ne {x : α} {k : κ} (hk : k ≠ key x) (s : Sorted key) :
    (s.insert x).get? k = s.get? k :=
  find?_insertList_of_ne hk s.toList

end Sorted

/-! ## Sets and maps -/

/-- A finite set, listed in ascending order. -/
abbrev SortedSet (α : Type) [Ord α] := Sorted (fun a : α => a)

namespace SortedSet

variable {α : Type} [Ord α] [Std.TransOrd α] [Std.LawfulEqOrd α]

/-- Whether `a` is in the set. -/
def contains [DecidableEq α] (s : SortedSet α) (a : α) : Bool := s.hasKey a

/-- The elements of both sets. -/
def union (s t : SortedSet α) : SortedSet α := s.insertMany t.toList

end SortedSet

/-- A finite map, listed in ascending order of its keys. -/
abbrev SortedMap (κ α : Type) [Ord κ] := Sorted (fun p : κ × α => p.1)

namespace SortedMap

variable {κ α : Type} [Ord κ] [Std.TransOrd κ] [Std.LawfulEqOrd κ]

/-- The value under key `k`. -/
def find? [DecidableEq κ] (m : SortedMap κ α) (k : κ) : Option α := (m.get? k).map Prod.snd

/-- Puts `v` under key `k`, instead of what was there. -/
def put (m : SortedMap κ α) (k : κ) (v : α) : SortedMap κ α := m.insert (k, v)

/-- Puts `v` under key `k` unless the key is taken. -/
def putNew [DecidableEq κ] (m : SortedMap κ α) (k : κ) (v : α) : SortedMap κ α :=
  m.insertNew (k, v)

/-- Changes the value under key `k`, if there is one. -/
def change [DecidableEq κ] (m : SortedMap κ α) (k : κ) (f : α → α) : SortedMap κ α :=
  m.modify k fun p => (p.1, f p.2)

/-- The keys, least first. -/
def keys (m : SortedMap κ α) : List κ := m.toList.map Prod.fst

/-- The values in order of their keys. -/
def values (m : SortedMap κ α) : List α := m.toList.map Prod.snd

end SortedMap

end Cityscape
