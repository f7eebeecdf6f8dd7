import Cityscape.Proofs.Entities

/-!
# `Landscapes`: lists and parents agree

In a well-formed landscape what an entity lists is there, and what an entity names as its parent
is there and lists it; for districts the two say the same (`Landscape.WellFormed`). Drawing an
entity that fits (`Landscape.Fits`) keeps a landscape well-formed. A drawing of any size is
described by what it adds (`Landscape.Draws`): such descriptions are composed, and a list of
drawings adds what its members add.

Some facts need less: that entities stand under their ids (`Landscape.Keyed`), and that a
landscape has all that another one has (`Landscape.Extends`).
-/

namespace Cityscape

namespace Landscape

variable {l l' l'' : Landscape} {kind κ : EntityKind} {link : Link} {x y k : String}
  {e e' : Entity} {places : Link → Option String}

/-! ## Well-formed landscapes -/

/-- The qualified name of a district: its name, behind that of its parent if it has one. -/
structure QualifiedIn (l : Landscape) (e : Entity) : Prop where
  root : e.parent .subdistrict = none → e.fqn = some e.name
  below : ∀ p, e.parent .subdistrict = some p → ∃ q fqn,
    l.entity? .district p = some q ∧ q.fqn = some fqn ∧ e.fqn = some (fqn ++ "." ++ e.name)

/-- The keys, the lists and the parents of a landscape agree. -/
structure WellFormed (l : Landscape) : Prop where
  /-- An entity stands under its id. -/
  keyed : ∀ kind x e, l.entity? kind x = some e → e.id = x
  /-- No id is listed twice. -/
  nodup : ∀ link k, (l.list link k).Nodup
  /-- What is listed is there. -/
  listed : ∀ link k x, x ∈ l.list link k → l.Has link.child x
  /-- A named parent is there and lists the entity. -/
  parents : ∀ link k x e, link.child ≠ .functionView → l.entity? link.child x = some e →
    e.parent link = some k → l.Has link.owner k ∧ x ∈ l.list link k
  /-- The named parent of a function is a building or a class that lists it. -/
  functions : ∀ x e, l.entity? .functionView x = some e → ∃ link k, link.child = .functionView ∧
    e.parent link = some k ∧ l.Has link.owner k ∧ x ∈ l.list link k
  /-- A district is listed by its parents alone. -/
  districts : ∀ link k x e, link.child = .district → l.entity? .district x = some e →
    (x ∈ l.list link k ↔ e.parent link = some k)
  qualified : ∀ x e, l.entity? .district x = some e → l.QualifiedIn e

theorem has_iff : l.Has kind x ↔ ∃ e, l.entity? kind x = some e := Option.isSome_iff_exists

/-- Whether the district `p` is named as the parent of the district `x`. -/
def ParentDistrict (l : Landscape) (x p : String) : Prop :=
  ∃ e, l.entity? .district x = some e ∧ e.parent .subdistrict = some p

/-- The length of the qualified name of a district. -/
def depth (l : Landscape) (x : String) : Nat :=
  (((l.entity? .district x).bind Entity.fqn).getD "").length

/-- The qualified name of a parent is shorter. -/
theorem WellFormed.depth_lt (hl : l.WellFormed) (h : l.ParentDistrict x y) :
    l.depth y < l.depth x := by
  obtain ⟨e, he, hp⟩ := h
  obtain ⟨q, fqn, hq, hqf, hef⟩ := (hl.qualified x e he).below y hp
  have hy : l.depth y = fqn.length := by
    unfold depth
    rw [hq, Option.bind_some, hqf, Option.getD_some]
  have hx : l.depth x = (fqn ++ "." ++ e.name).length := by
    unfold depth
    rw [he, Option.bind_some, hef, Option.getD_some]
  have hdot : (".": String).length = 1 := rfl
  rw [hx, hy, String.length_append, String.length_append, hdot]
  omega

/-- No district is above itself: qualified names get shorter on the way up. -/
theorem WellFormed.acyclic (hl : l.WellFormed) (x : String) :
    ¬Relation.TransGen l.ParentDistrict x x := by
  have hlt : ∀ y, Relation.TransGen l.ParentDistrict x y → l.depth y < l.depth x := by
    intro y h
    induction h with
    | single h => exact hl.depth_lt h
    | tail _ h ih => exact Nat.lt_trans (hl.depth_lt h) ih
  intro h
  exact Nat.lt_irrefl _ (hlt x h)

/-! ## Landscapes with ids for keys -/

/-- The key of every entity is its id. -/
structure Keyed (l : Landscape) : Prop where
  cities : ∀ p ∈ l.cities.toList, p.2.id = p.1
  districts : ∀ p ∈ l.districts.toList, p.2.id = p.1
  buildings : ∀ p ∈ l.buildings.toList, p.2.id = p.1
  classes : ∀ p ∈ l.classes.toList, p.2.id = p.1
  functions : ∀ p ∈ l.functions.toList, p.2.id = p.1

section ByEntity

variable {α : Type} {m : SortedMap String α} {view : α → Entity} {id : α → String}

/-- The elements of a map have their ids for keys if their entities have. -/
theorem keyed_map_iff (hid : ∀ a, (view a).id = id a) :
    (∀ p ∈ m.toList, id p.2 = p.1) ↔ ∀ x e, (m.find? x).map view = some e → e.id = x := by
  constructor
  case mp =>
    intro h x e he
    obtain ⟨a, ha, rfl⟩ := Option.map_eq_some_iff.1 he
    exact (hid a).trans (h (x, a) (SortedMap.find?_iff_mem.1 ha))
  case mpr =>
    intro h p hp
    have hfind : m.find? p.1 = some p.2 := SortedMap.find?_iff_mem.2 hp
    exact (hid p.2).symm.trans (h p.1 (view p.2) (by rw [hfind, Option.map_some]))

end ByEntity

theorem keyed_iff : l.Keyed ↔ ∀ kind x e, l.entity? kind x = some e → e.id = x := by
  constructor
  case mp =>
    intro h kind
    cases kind with
    | city => exact (keyed_map_iff fun _ => rfl).1 h.cities
    | district => exact (keyed_map_iff fun _ => rfl).1 h.districts
    | building => exact (keyed_map_iff fun _ => rfl).1 h.buildings
    | classView => exact (keyed_map_iff fun _ => rfl).1 h.classes
    | functionView => exact (keyed_map_iff fun _ => rfl).1 h.functions
  case mpr =>
    intro h
    exact {
      cities := (keyed_map_iff fun _ => rfl).2 (h .city)
      districts := (keyed_map_iff fun _ => rfl).2 (h .district)
      buildings := (keyed_map_iff fun _ => rfl).2 (h .building)
      classes := (keyed_map_iff fun _ => rfl).2 (h .classView)
      functions := (keyed_map_iff fun _ => rfl).2 (h .functionView) }

theorem WellFormed.toKeyed (hl : l.WellFormed) : l.Keyed := keyed_iff.2 hl.keyed

/-! ## One entity -/

namespace Adds

theorem kept (h : Adds l l' kind x e places) (he : l.entity? κ k = some e') :
    l'.entity? κ k = some e' := by
  by_cases hk : (κ, k) = (kind, x)
  · obtain ⟨rfl, rfl⟩ := Prod.ext_iff.1 hk
    rw [h.self, he, Option.getD_some]
  · rw [h.frame κ k hk, he]

/-- An entity was there before, or it is the one that is drawn. -/
theorem entity_cases (h : Adds l l' kind x e places) (he : l'.entity? κ k = some e') :
    l.entity? κ k = some e' ∨ κ = kind ∧ k = x ∧ e' = e := by
  by_cases hk : (κ, k) = (kind, x)
  · obtain ⟨rfl, rfl⟩ := Prod.ext_iff.1 hk
    rw [h.self] at he
    cases hold : l.entity? κ k with
    | none => exact .inr ⟨rfl, rfl, by rw [hold] at he; exact (Option.some.inj he).symm⟩
    | some e'' => exact .inl (by rw [hold] at he; exact he)
  · exact .inl ((h.frame κ k hk).symm.trans he)

theorem has_iff (h : Adds l l' kind x e places) :
    l'.Has κ k ↔ l.Has κ k ∨ κ = kind ∧ k = x := by
  constructor
  case mp =>
    intro hk
    obtain ⟨e', he'⟩ := Landscape.has_iff.1 hk
    exact (h.entity_cases he').imp (fun he => Landscape.has_iff.2 ⟨e', he⟩)
      fun ⟨hκ, hk, _⟩ => ⟨hκ, hk⟩
  case mpr =>
    rintro (hk | ⟨rfl, rfl⟩)
    · obtain ⟨e', he'⟩ := Landscape.has_iff.1 hk
      exact Landscape.has_iff.2 ⟨e', h.kept he'⟩
    · exact Landscape.has_iff.2 ⟨_, h.self⟩

theorem mem_list_iff (h : Adds l l' kind x e places) :
    y ∈ l'.list link k ↔ y ∈ l.list link k ∨ places link = some k ∧ y = x := by
  rw [h.list]
  split
  · rename_i hp
    rw [mem_pushUnique]
    exact or_congr_right ⟨fun hy => ⟨hp, hy⟩, fun hy => hy.2⟩
  · rename_i hp
    exact ⟨.inl, fun hy => hy.elim id fun hn => absurd hn.1 hp⟩

end Adds

/-! ## More is drawn -/

/-- A landscape that has all that another one has, and lists all that it lists. -/
structure Extends (l l' : Landscape) : Prop where
  keyed : l'.Keyed
  kept : ∀ κ k e, l.entity? κ k = some e → l'.entity? κ k = some e
  listKept : ∀ link k x, x ∈ l.list link k → x ∈ l'.list link k

namespace Extends

theorem refl (hl : l.Keyed) : l.Extends l where
  keyed := hl
  kept _ _ _ := id
  listKept _ _ _ := id

theorem trans (h : l.Extends l') (h' : l'.Extends l'') : l.Extends l'' where
  keyed := h'.keyed
  kept κ k e he := h'.kept κ k e (h.kept κ k e he)
  listKept link k x hx := h'.listKept link k x (h.listKept link k x hx)

theorem has (h : l.Extends l') (hk : l.Has κ k) : l'.Has κ k := by
  obtain ⟨e, he⟩ := has_iff.1 hk
  exact has_iff.2 ⟨e, h.kept κ k e he⟩

end Extends

/-- An entity that is drawn under its id. -/
theorem Adds.extends (h : Adds l l' kind x e places) (hl : l.Keyed) (hid : e.id = x) :
    l.Extends l' where
  keyed := by
    refine keyed_iff.2 fun κ k e' he => ?_
    rcases h.entity_cases he with hold | ⟨rfl, rfl, rfl⟩
    · exact keyed_iff.1 hl κ k e' hold
    · exact hid
  kept _ _ _ := h.kept
  listKept _ _ _ hy := h.mem_list_iff.2 (.inl hy)

/-- The entity `e` can be drawn under the key `x` and listed in some places: the owners of the
lists are there, and are what it names as its parents. A district must be new. -/
structure Fits (l : Landscape) (kind : EntityKind) (x : String) (e : Entity)
    (places : Link → Option String) : Prop where
  id : e.id = x
  owner : ∀ link k, places link = some k → link.child = kind ∧ l.Has link.owner k
  parent : ∀ link, link.child = kind → kind ≠ .functionView → e.parent link = places link
  function : kind = .functionView → ∃ link k, places link = some k ∧ e.parent link = some k
  fresh : kind = .district → ¬l.Has .district x
  qualified : kind = .district → l.QualifiedIn e

/-- An entity fits below all that it names as its parents, if these can have it and are there.
Districts and functions have more to meet. -/
theorem fits_of_owners (hdistrict : kind ≠ .district) (hfunction : kind ≠ .functionView)
    (howner : ∀ link k, e.parent link = some k → link.child = kind ∧ l.Has link.owner k) :
    l.Fits kind e.id e e.parent where
  id := rfl
  owner := howner
  parent _ _ _ := rfl
  function h := absurd h hfunction
  fresh h := absurd h hdistrict
  qualified h := absurd h hdistrict

theorem QualifiedIn.mono
    (hkept : ∀ κ k e, l.entity? κ k = some e → l'.entity? κ k = some e)
    (h : l.QualifiedIn e) : l'.QualifiedIn e where
  root := h.root
  below p hp := by
    obtain ⟨q, fqn, hq, hfqn⟩ := h.below p hp
    exact ⟨q, fqn, hkept _ _ _ hq, hfqn⟩

/-- A landscape stays well-formed when an entity that fits is drawn. -/
theorem WellFormed.adds (hl : l.WellFormed) (hfits : l.Fits kind x e places)
    (h : Adds l l' kind x e places) : l'.WellFormed where
  keyed κ k e' he := by
    rcases h.entity_cases he with hold | ⟨rfl, rfl, rfl⟩
    · exact hl.keyed κ k e' hold
    · exact hfits.id
  nodup link k := by
    rw [h.list]
    split
    · exact nodup_pushUnique (hl.nodup link k)
    · exact hl.nodup link k
  listed link k y hy := by
    rw [h.has_iff]
    rcases h.mem_list_iff.1 hy with hold | ⟨hplace, rfl⟩
    · exact .inl (hl.listed link k y hold)
    · exact .inr ⟨(hfits.owner link k hplace).1, rfl⟩
  parents link k y e' hchild he hparent := by
    rw [h.has_iff, h.mem_list_iff]
    rcases h.entity_cases he with hold | ⟨hkind, rfl, rfl⟩
    · have := hl.parents link k y e' hchild hold hparent
      exact ⟨.inl this.1, .inl this.2⟩
    · have hplace : places link = some k :=
        (hfits.parent link hkind (hkind ▸ hchild)).symm.trans hparent
      exact ⟨.inl (hfits.owner link k hplace).2, .inr ⟨hplace, rfl⟩⟩
  functions y e' he := by
    rcases h.entity_cases he with hold | ⟨hkind, rfl, rfl⟩
    · obtain ⟨link, k, hchild, hparent, howner, hmem⟩ := hl.functions y e' hold
      exact ⟨link, k, hchild, hparent, h.has_iff.2 (.inl howner), h.mem_list_iff.2 (.inl hmem)⟩
    · obtain ⟨link, k, hplace, hparent⟩ := hfits.function hkind.symm
      obtain ⟨hchild, howner⟩ := hfits.owner link k hplace
      exact ⟨link, k, hchild.trans hkind.symm, hparent, h.has_iff.2 (.inl howner),
        h.mem_list_iff.2 (.inr ⟨hplace, rfl⟩)⟩
  districts link k y e' hchild he := by
    rw [h.mem_list_iff]
    rcases h.entity_cases he with hold | ⟨hkind, rfl, rfl⟩
    · -- the district was there, so it is not the one that is listed now
      have hne : ¬(places link = some k ∧ y = x) := by
        rintro ⟨hplace, rfl⟩
        exact hfits.fresh ((hfits.owner link k hplace).1.symm.trans hchild)
          (Landscape.has_iff.2 ⟨e', hold⟩)
      rw [or_iff_left hne]
      exact hl.districts link k y e' hchild hold
    · -- the district is new, so nothing has listed it so far
      have hfresh : y ∉ l.list link k := fun hy =>
        hfits.fresh hkind.symm (hchild ▸ hl.listed link k y hy)
      rw [or_iff_right hfresh,
        hfits.parent link (hchild.trans hkind) (hkind ▸ EntityKind.noConfusion)]
      exact and_iff_left rfl
  qualified y e' he := by
    refine QualifiedIn.mono (fun κ k e' => h.kept) ?_
    rcases h.entity_cases he with hold | ⟨hkind, rfl, rfl⟩
    · exact hl.qualified y e' hold
    · exact hfits.qualified hkind.symm

/-! ## Drawings -/

/-- What a drawing adds to a landscape: the new entities, and ids in the lists that they should
be in. All that is there stays. -/
structure Draws (l l' : Landscape) (new : EntityKind → String → Prop)
    (placed : Link → String → String → Prop) : Prop where
  wellFormed : l'.WellFormed
  kept : ∀ κ k e, l.entity? κ k = some e → l'.entity? κ k = some e
  listKept : ∀ link k x, x ∈ l.list link k → x ∈ l'.list link k
  has : ∀ κ k, l'.Has κ k ↔ l.Has κ k ∨ new κ k
  listed : ∀ link k x, placed link k x → x ∈ l'.list link k

section Draws

variable {new new' : EntityKind → String → Prop} {placed placed' : Link → String → String → Prop}

/-- An entity that fits is drawn. -/
theorem Adds.draws (h : Adds l l' kind x e places) (hl : l.WellFormed)
    (hfits : l.Fits kind x e places) :
    Draws l l' (fun κ k => κ = kind ∧ k = x) fun link k y => places link = some k ∧ y = x where
  wellFormed := hl.adds hfits h
  kept _ _ _ := h.kept
  listKept _ _ _ hy := h.mem_list_iff.2 (.inl hy)
  has _ _ := h.has_iff
  listed _ _ _ hy := h.mem_list_iff.2 (.inr hy)

namespace Draws

theorem hasKept (h : Draws l l' new placed) (hk : l.Has κ k) : l'.Has κ k :=
  (h.has κ k).2 (.inl hk)

theorem hasNew (h : Draws l l' new placed) (hk : new κ k) : l'.Has κ k :=
  (h.has κ k).2 (.inr hk)

/-- Nothing is drawn. -/
theorem refl (hl : l.WellFormed) : Draws l l (fun _ _ => False) fun _ _ _ => False where
  wellFormed := hl
  kept _ _ _ := id
  listKept _ _ _ := id
  has _ _ := (or_false _).to_iff.symm
  listed _ _ _ := False.elim

/-- One drawing after the other adds what both add. -/
theorem trans (h : Draws l l' new placed) (h' : Draws l' l'' new' placed') :
    Draws l l'' (fun κ k => new κ k ∨ new' κ k)
      fun link k x => placed link k x ∨ placed' link k x where
  wellFormed := h'.wellFormed
  kept κ k e he := h'.kept κ k e (h.kept κ k e he)
  listKept link k x hx := h'.listKept link k x (h.listKept link k x hx)
  has κ k := by rw [h'.has, h.has, or_assoc]
  listed link k x hx :=
    hx.elim (fun hx => h'.listKept link k x (h.listed link k x hx)) (h'.listed link k x)

/-- The same additions, told in another way. -/
theorem congr (h : Draws l l' new placed)
    (hnew : ∀ κ k, (l.Has κ k ∨ new κ k) ↔ (l.Has κ k ∨ new' κ k))
    (hplaced : ∀ link k x, placed' link k x → placed link k x) : Draws l l' new' placed' where
  wellFormed := h.wellFormed
  kept := h.kept
  listKept := h.listKept
  has κ k := (h.has κ k).trans (hnew κ k)
  listed link k x hx := h.listed link k x (hplaced link k x hx)

/-- A list of drawings adds what its members add, if each of them can be drawn wherever some
entities are there that are there at the start. -/
theorem foldl {α : Type} {op : Landscape → α → Landscape} (as : List α)
    (needed : EntityKind → String → Prop) {new : α → EntityKind → String → Prop}
    {placed : α → Link → String → String → Prop}
    (hop : ∀ l : Landscape, ∀ a ∈ as, l.WellFormed → (∀ κ k, needed κ k → l.Has κ k) →
      Draws l (op l a) (new a) (placed a))
    (hl : l.WellFormed) (hneeded : ∀ κ k, needed κ k → l.Has κ k) :
    Draws l (as.foldl op l) (fun κ k => ∃ a ∈ as, new a κ k)
      fun link k x => ∃ a ∈ as, placed a link k x := by
  induction as generalizing l with
  | nil =>
    refine (refl hl).congr (fun κ k => or_congr_right ?_) fun link k x => ?_
    · exact ⟨False.elim, fun ⟨_, ha, _⟩ => absurd ha List.not_mem_nil⟩
    · exact fun ⟨_, ha, _⟩ => absurd ha List.not_mem_nil
  | cons a as ih =>
    have hfirst := hop l a List.mem_cons_self hl hneeded
    have hrest := ih (fun l b hb => hop l b (List.mem_cons_of_mem a hb)) hfirst.wellFormed
      fun κ k hk => hfirst.hasKept (hneeded κ k hk)
    refine (hfirst.trans hrest).congr (fun κ k => or_congr_right ?_) fun link k x => ?_
    · simp only [List.mem_cons, exists_eq_or_imp]
    · simp only [List.mem_cons, exists_eq_or_imp]
      exact id

end Draws

end Draws

end Landscape

end Cityscape
