import Cityscape.Proofs.Hydration
import Cityscape.Proofs.Projection

/-!
# `Overlays`: a commit is drawn the same onto any landscape

What a drawing makes of a landscape is told in full by `Landscape.Merges`: what is there stays,
what is missing comes from the drawing, and the lists grow by what is placed in them. A commit
brings the same entities onto whatever landscape it is drawn (`Landscape.uniform_drawCommit`).
This is plain for all entities but districts, which take their qualified name from the district
above them; that one may have been drawn with an earlier commit. It was given the name that the
store has for its directory (`Store.Faithful`), so it does not matter which commit drew it.
-/

namespace Cityscape

/-! ## Qualified names of directories -/

namespace NodeId

theorem text_injective {a b : NodeId} (h : a.text = b.text) : a = b := by
  have hdigits : Nat.toDigits 10 a.val.toNat = Nat.toDigits 10 b.val.toNat := by
    have hlists := congrArg String.toList h
    unfold text at hlists
    rwa [String.toList_ofList, String.toList_ofList] at hlists
  have hval : a.val.toNat = b.val.toNat := calc
    a.val.toNat = Nat.ofDigitChars 10 (Nat.toDigits 10 a.val.toNat) 0 :=
      Nat.ofDigitChars_ten_toDigits.symm
    _ = b.val.toNat := by rw [hdigits, Nat.ofDigitChars_ten_toDigits]
  cases a
  cases b
  exact congrArg mk (UInt64.toNat_inj.1 hval)

end NodeId

/-- The names of directories with dots between them; the nearest one is the last name. -/
def dotted : List Directory → String
  | [] => ""
  | [d] => d.name
  | d :: e :: rest => dotted (e :: rest) ++ "." ++ d.name

namespace Store

variable {owner : NodeId → String} {n : Nat} {s : Store} {d e : Directory}

/-- The qualified name of a directory. -/
def districtFqn (s : Store) (d : Directory) : String :=
  dotted (climb s.directories.toList (some d.id))

theorem Sound.districtFqn_top (hs : s.Sound owner n) (hd : d ∈ s.directories)
    (hp : d.parent = none) : s.districtFqn d = d.name := by
  have hnil : climb s.directories.toList d.parent = [] := by rw [hp, climb]
  unfold districtFqn
  rw [hs.trees.climb_eq_cons hd, hnil, dotted]

theorem Sound.districtFqn_below (hs : s.Sound owner n) (hd : d ∈ s.directories)
    (he : e ∈ s.directories) (hp : d.parent = some e.id) :
    s.districtFqn d = s.districtFqn e ++ "." ++ d.name := by
  unfold districtFqn
  rw [hs.trees.climb_eq_cons hd, hp, hs.trees.climb_eq_cons he, dotted]

/-- The entity is a district under the key `x`, with the name that the store has for its
directory. -/
def Tells (s : Store) (x : String) (e : Entity) : Prop :=
  e.id = x ∧ ∀ d ∈ s.directories, d.id.text = x → e.fqn = some (s.districtFqn d)

/-- All districts have the names that the store has for their directories. -/
def Faithful (s : Store) (l : Landscape) : Prop :=
  ∀ x e, l.entity? .district x = some e → s.Tells x e

end Store

namespace Landscape

variable {l l' l'' : Landscape} {kind κ : EntityKind} {link : Link} {x k : String} {e : Entity}
  {places : Link → Option String} {new new' : EntityKind → String → Option Entity}
  {placed placed' : Link → String → String → Prop} {s : Store}

/-! ## Drawing onto a landscape -/

/-- The landscape `l'` is what a drawing with the entities `new` makes of `l`: an entity that is
there stays, and ids are placed in the lists. The lists of districts are not told; they follow
from the districts. -/
structure Merges (l l' : Landscape) (new : EntityKind → String → Option Entity)
    (placed : Link → String → String → Prop) : Prop where
  token : l'.landscapeToken = l.landscapeToken
  entity : ∀ κ k, l'.entity? κ k = (l.entity? κ k).or (new κ k)
  list : ∀ link k x, link.child ≠ .district →
    (x ∈ l'.list link k ↔ x ∈ l.list link k ∨ placed link k x)

/-- One entity of a kind under a key, and no others. -/
def only (kind : EntityKind) (x : String) (e : Entity) : EntityKind → String → Option Entity :=
  fun κ k => if (κ, k) = (kind, x) then some e else none

theorem only_eq_some_iff {e' : Entity} :
    only kind x e κ k = some e' ↔ (κ = kind ∧ k = x) ∧ e = e' := by
  unfold only
  split
  · rename_i h
    rw [Option.some.injEq]
    exact (and_iff_right (Prod.ext_iff.1 h)).symm
  · rename_i h
    exact ⟨nofun, fun h' => absurd (Prod.ext h'.1.1 h'.1.2) h⟩

theorem Adds.merges (h : Adds l l' kind x e places)
    (htoken : l'.landscapeToken = l.landscapeToken) :
    Merges l l' (only kind x e) fun link k y => places link = some k ∧ y = x where
  token := htoken
  entity κ k := by
    unfold only
    by_cases hk : (κ, k) = (kind, x)
    · obtain ⟨rfl, rfl⟩ := Prod.ext_iff.1 hk
      rw [h.self, if_pos rfl]
      cases l.entity? κ k <;> rfl
    · rw [h.frame κ k hk, if_neg hk, Option.or_none]
  list _ _ _ _ := h.mem_list_iff

namespace Merges

theorem refl (l : Landscape) : Merges l l (fun _ _ => none) fun _ _ _ => False where
  token := rfl
  entity _ _ := Option.or_none.symm
  list _ _ _ _ := (or_false _).to_iff.symm

/-- Of two drawings the first one decides. -/
theorem trans (h : Merges l l' new placed) (h' : Merges l' l'' new' placed') :
    Merges l l'' (fun κ k => (new κ k).or (new' κ k))
      fun link k x => placed link k x ∨ placed' link k x where
  token := h'.token.trans h.token
  entity κ k := by rw [h'.entity, h.entity, Option.or_assoc]
  list link k x hlink := by rw [h'.list link k x hlink, h.list link k x hlink, or_assoc]

theorem has (h : Merges l l' new placed) (hk : l.Has κ k) : l'.Has κ k := by
  unfold Has
  rw [h.entity, Option.isSome_or, hk, Bool.true_or]

theorem hasNew (h : Merges l l' new placed) (hk : (new κ k).isSome) : l'.Has κ k := by
  unfold Has
  rw [h.entity, Option.isSome_or, hk, Bool.or_true]

theorem faithful (h : Merges l l' new placed) (hl : s.Faithful l)
    (hnew : ∀ x e, new .district x = some e → s.Tells x e) : s.Faithful l' := by
  intro x e he
  rw [h.entity, Option.or_eq_some_iff] at he
  rcases he with hold | ⟨-, hnew'⟩
  · exact hl x e hold
  · exact hnew x e hnew'

end Merges

/-! ## Drawing the same everywhere -/

/-- The drawing `op` brings the same entities onto every faithful landscape that has what is
needed; `shows` is what they are. -/
def Uniform (s : Store) (needed : EntityKind → String → Prop) (op : Landscape → Landscape)
    (shows : EntityKind → String → Prop) (placed : Link → String → String → Prop) : Prop :=
  ∃ new : EntityKind → String → Option Entity,
    (∀ κ k, shows κ k → (new κ k).isSome) ∧ (∀ x e, new .district x = some e → s.Tells x e) ∧
    ∀ l, s.Faithful l → (∀ κ k, needed κ k → l.Has κ k) → Merges l (op l) new placed

namespace Uniform

variable {needed needed' shows shows' : EntityKind → String → Prop} {op op' : Landscape → Landscape}

/-- An entity that is not a district is drawn. -/
theorem of_adds (hkind : kind ≠ .district)
    (h : ∀ l : Landscape, (∀ κ k, needed κ k → l.Has κ k) → Adds l (op l) kind x e places)
    (htoken : ∀ l, (op l).landscapeToken = l.landscapeToken) :
    Uniform s needed op (fun κ k => κ = kind ∧ k = x)
      fun link k y => places link = some k ∧ y = x := by
  refine ⟨only kind x e, ?_, ?_, fun l _ hl => (h l hl).merges (htoken l)⟩
  · exact fun κ k hk => Option.isSome_of_eq_some (only_eq_some_iff.2 ⟨hk, rfl⟩)
  · exact fun y e' he => absurd (only_eq_some_iff.1 he).1.1.symm hkind

/-- The same drawing, told in another way. -/
theorem congr (h : Uniform s needed op shows placed)
    (hop : ∀ l, s.Faithful l → (∀ κ k, needed κ k → l.Has κ k) → op' l = op l)
    (hshows : ∀ κ k, shows' κ k → shows κ k)
    (hplaced : ∀ link k x, link.child ≠ .district → (placed' link k x ↔ placed link k x)) :
    Uniform s needed op' shows' placed' := by
  obtain ⟨new, hnew, htells, hmerges⟩ := h
  refine ⟨new, fun κ k hk => hnew κ k (hshows κ k hk), htells, fun l hl hneeded => ?_⟩
  have hm := hmerges l hl hneeded
  rw [hop l hl hneeded]
  exact ⟨hm.token, hm.entity, fun link k x hlink => by rw [hm.list _ _ _ hlink, hplaced _ _ _ hlink]⟩

theorem needing (h : Uniform s needed op shows placed)
    (hneeded : ∀ κ k, needed κ k → needed' κ k) : Uniform s needed' op shows placed := by
  obtain ⟨new, hnew, htells, hmerges⟩ := h
  exact ⟨new, hnew, htells, fun l hl hhas => hmerges l hl fun κ k hk => hhas κ k (hneeded κ k hk)⟩

/-- One drawing after the other; the first one may bring what the second one needs. -/
theorem comp (h : Uniform s needed op shows placed) (h' : Uniform s needed' op' shows' placed')
    (hneeded : ∀ κ k, needed' κ k → needed κ k ∨ shows κ k) :
    Uniform s needed (fun l => op' (op l)) (fun κ k => shows κ k ∨ shows' κ k)
      fun link k x => placed link k x ∨ placed' link k x := by
  obtain ⟨new, hnew, htells, hmerges⟩ := h
  obtain ⟨new', hnew', htells', hmerges'⟩ := h'
  refine ⟨fun κ k => (new κ k).or (new' κ k), ?_, ?_, ?_⟩
  · intro κ k hk
    rw [Option.isSome_or, Bool.or_eq_true]
    exact hk.imp (hnew κ k) (hnew' κ k)
  · intro x e he
    exact (Option.or_eq_some_iff.1 he).elim (htells x e) fun he => htells' x e he.2
  · intro l hl hhas
    have hm := hmerges l hl hhas
    refine hm.trans (hmerges' (op l) (hm.faithful hl htells) fun κ k hk => ?_)
    exact (hneeded κ k hk).elim (fun hk => hm.has (hhas κ k hk)) fun hk => hm.hasNew (hnew κ k hk)

/-- A list of drawings that need the same. -/
theorem foldl {α : Type} {op : Landscape → α → Landscape} (as : List α)
    {shows : α → EntityKind → String → Prop} {placed : α → Link → String → String → Prop}
    (hop : ∀ a ∈ as, Uniform s needed (fun l => op l a) (shows a) (placed a)) :
    Uniform s needed (fun l => as.foldl op l) (fun κ k => ∃ a ∈ as, shows a κ k)
      fun link k x => ∃ a ∈ as, placed a link k x := by
  induction as with
  | nil =>
    refine ⟨fun _ _ => none, ?_, nofun, fun l _ _ => ?_⟩
    · exact fun κ k ⟨a, ha, _⟩ => absurd ha List.not_mem_nil
    · have hno : (fun link k x => ∃ a ∈ ([] : List α), placed a link k x) = fun _ _ _ => False := by
        funext link k x
        simp
      rw [hno]
      exact .refl l
  | cons a as ih =>
    have hrest := ih fun b hb => hop b (List.mem_cons_of_mem a hb)
    refine ((hop a List.mem_cons_self).comp hrest fun κ k hk => .inl hk).congr
      (fun l _ _ => rfl) (fun κ k => ?_) fun link k x _ => ?_
    · simp only [List.mem_cons, exists_eq_or_imp]
      exact id
    · simp only [List.mem_cons, exists_eq_or_imp]

end Uniform

/-! ## Districts -/

variable {owner : NodeId → String} {n : Nat} {cityId : String} {d : Directory}

/-- What the next district is drawn below: the district of a directory, with its name. -/
def below (s : Store) (parent : Option Directory) : Option (String × String) :=
  parent.map fun e => (e.id.text, s.districtFqn e)

theorem fqn_newDistrict (hs : s.Sound owner n) (hd : d ∈ s.directories) {parent : Option Directory}
    (hmem : ∀ e ∈ parent, e ∈ s.directories) (hparent : d.parent = parent.map Directory.id) :
    (newDistrict cityId (below s parent) d).fqn = s.districtFqn d := by
  cases parent with
  | none => exact (hs.districtFqn_top hd hparent).symm
  | some e => exact (hs.districtFqn_below hd (hmem e rfl) hparent).symm

/-- The district of a directory is drawn below that of its parent. -/
theorem drawDistrict_merges (hs : s.Sound owner n) (hd : d ∈ s.directories)
    {parent : Option Directory} (hmem : ∀ e ∈ parent, e ∈ s.directories)
    (hparent : d.parent = parent.map Directory.id) (hl : s.Faithful l) (hcity : l.Has .city cityId)
    (hhas : ∀ e ∈ parent, l.Has .district e.id.text) :
    Merges l (drawDistrict cityId (l, below s parent) d).1
        (only .district d.id.text (newDistrict cityId (below s parent) d).entity)
        (fun _ _ _ => False)
      ∧ (drawDistrict cityId (l, below s parent) d).2 = below s (some d) := by
  cases hfind : l.districts.find? d.id.text with
  | some old =>
    have hold : l.entity? .district d.id.text = some old.entity := by
      show (l.districts.find? _).map District.entity = _
      rw [hfind, Option.map_some]
    obtain ⟨hid, hfqn⟩ := hl d.id.text old.entity hold
    have heq : drawDistrict cityId (l, below s parent) d = (l, some (old.id, old.fqn)) := by
      simp only [drawDistrict, hfind]
    rw [heq]
    constructor
    · refine ⟨rfl, fun κ k => ?_, (Merges.refl l).list⟩
      unfold only
      split
      · rename_i hk
        obtain ⟨rfl, rfl⟩ := Prod.ext_iff.1 hk
        show l.entity? .district d.id.text = (l.entity? .district d.id.text).or _
        rw [hold, Option.some_or]
      · exact Option.or_none.symm
    · have hid : old.id = d.id.text := hid
      have hfqn : old.fqn = s.districtFqn d := Option.some.inj (hfqn d hd rfl)
      rw [hid, hfqn]
      rfl
  | none =>
    have hdistrict : ∀ p, (newDistrict cityId (below s parent) d).parentDistrictId = some p →
        (l.districts.find? p).isSome := by
      intro p hp
      cases parent with
      | none => cases hp
      | some e =>
        obtain rfl := Option.some.inj hp
        exact Option.isSome_map.symm.trans (hhas e rfl)
    have hadds := adds_withDistrict (d := newDistrict cityId (below s parent) d) hfind
      (Option.isSome_map.symm.trans hcity) hdistrict rfl rfl
    rw [drawDistrict_of_none _ hfind, fqn_newDistrict hs hd hmem hparent]
    refine ⟨⟨rfl, (hadds.merges rfl).entity, fun link k x hlink => ?_⟩, rfl⟩
    rw [hadds.mem_list_iff]
    refine or_congr_right (iff_of_false ?_ id)
    rintro ⟨hplace, -⟩
    cases link with
    | rootDistrict | district | subdistrict => exact hlink rfl
    | cityBuilding | districtBuilding | buildingClass | buildingFunction | classFunction =>
      cases hplace

theorem uniform_drawDistrict (cityId : String) (hs : s.Sound owner n) (hd : d ∈ s.directories)
    {parent : Option Directory} (hmem : ∀ e ∈ parent, e ∈ s.directories)
    (hparent : d.parent = parent.map Directory.id) :
    Uniform s (fun κ k => κ = .city ∧ k = cityId ∨ κ = .district ∧ ∃ e ∈ parent, k = e.id.text)
      (fun l => (drawDistrict cityId (l, below s parent) d).1)
      (fun κ k => κ = .district ∧ k = d.id.text) fun _ _ _ => False := by
  refine ⟨only .district d.id.text (newDistrict cityId (below s parent) d).entity, ?_, ?_, ?_⟩
  · exact fun κ k hk => Option.isSome_of_eq_some (only_eq_some_iff.2 ⟨hk, rfl⟩)
  · intro x e he
    obtain ⟨⟨-, rfl⟩, rfl⟩ := only_eq_some_iff.1 he
    refine ⟨rfl, fun d' hd' htext => ?_⟩
    obtain rfl := Sorted.eq_of_key_eq hd' hd (NodeId.text_injective htext)
    exact congrArg some (fqn_newDistrict hs hd hmem hparent)
  · intro l hl hneeded
    exact (drawDistrict_merges hs hd hmem hparent hl (hneeded _ _ (.inl ⟨rfl, rfl⟩))
      fun e he => hneeded _ _ (.inr ⟨rfl, e, he, rfl⟩)).1

/-- The directories on the way down to a directory are drawn each below the one before. -/
def descend (s : Store) (cityId : String) (next : Option Directory) (l : Landscape) :
    Landscape × Option (String × String) :=
  (climb s.directories.toList (next.map Directory.id)).reverse.foldl (drawDistrict cityId) (l, none)

/-- What is drawn on the way down does not depend on the landscape. -/
structure Descends (s : Store) (cityId : String) (next : Option Directory) : Prop where
  uniform : Uniform s (fun κ k => κ = .city ∧ k = cityId) (fun l => (descend s cityId next l).1)
    (fun κ k => κ = .district ∧ ∃ e ∈ next, k = e.id.text) fun _ _ _ => False
  last : ∀ l, s.Faithful l → l.Has .city cityId → (descend s cityId next l).2 = below s next

theorem descends_none : Descends s cityId none := by
  have hnil : ∀ l, descend s cityId none l = (l, none) := fun l => by
    unfold descend
    rw [Option.map_none, climb]
    rfl
  refine ⟨⟨fun _ _ => none, ?_, (fun _ _ h => by cases h), fun l _ _ => ?_⟩, fun l _ _ => ?_⟩
  · rintro κ k ⟨-, e, he, -⟩
    cases he
  · simp only [hnil]
    exact .refl l
  · rw [hnil]
    rfl

/-- One step further down. -/
theorem Descends.step (hs : s.Sound owner n) {next : Option Directory}
    (h : Descends s cityId next) (hmem : ∀ e ∈ next, e ∈ s.directories) (hd : d ∈ s.directories)
    (hparent : d.parent = next.map Directory.id) : Descends s cityId (some d) := by
  have hcons : ∀ l, descend s cityId (some d) l
      = drawDistrict cityId (descend s cityId next l) d := by
    intro l
    unfold descend
    rw [Option.map_some, hs.trees.climb_eq_cons hd, hparent, List.reverse_cons, List.foldl_append]
    rfl
  have hlast : ∀ l, s.Faithful l → l.Has .city cityId → descend s cityId (some d) l
      = drawDistrict cityId ((descend s cityId next l).1, below s next) d := by
    intro l hl hcity
    rw [hcons, ← h.last l hl hcity]
  constructor
  case uniform =>
    refine (h.uniform.comp (uniform_drawDistrict cityId hs hd hmem hparent) ?_).congr ?_ ?_ ?_
    · exact fun κ k hk => hk
    · exact fun l hl hneeded => congrArg Prod.fst (hlast l hl (hneeded _ _ ⟨rfl, rfl⟩))
    · rintro κ k ⟨rfl, e, he, rfl⟩
      exact .inr ⟨rfl, by rw [Option.some.inj he]⟩
    · exact fun _ _ _ _ => (or_self _).to_iff.symm
  case last =>
    intro l hl hcity
    obtain ⟨new, hnew, htells, hmerges⟩ := h.uniform
    have hm := hmerges l hl fun κ k hk => hk.1 ▸ hk.2 ▸ hcity
    rw [hlast l hl hcity]
    exact (drawDistrict_merges hs hd hmem hparent (hm.faithful hl htells) (hm.has hcity)
      fun e he => hm.hasNew (hnew _ _ ⟨rfl, e, he, rfl⟩)).2

theorem descends (hs : s.Sound owner n) (cityId : String) :
    ∀ d ∈ s.directories, Descends s cityId (some d) := by
  refine hs.trees.directory_induction fun d hd ih => ?_
  cases hp : d.parent with
  | none => exact descends_none.step hs (fun e he => by cases he) hd hp
  | some p =>
    obtain ⟨e, he, -⟩ := (hs.fitting.directories d hd).parent p hp
    have hmem : ∀ e' ∈ some e, e' ∈ s.directories := by
      rintro e' ⟨⟩
      exact Sorted.mem_of_get? he
    refine (ih p e hp he).step hs hmem hd ?_
    rw [hp, Option.map_some, Sorted.key_of_get? he]

/-! ## Files, classes and functions -/

variable {h : HydratedCommit} {f : FileRevision}

/-- If nothing is missing above a file, it is placed in the directory that it hangs below. -/
theorem parentOf_of_ancestors (hs : s.Sound owner n) (hf : f ∈ s.files)
    (habove : h.ancestors f = s.ancestors f) :
    ∃ d ∈ s.directories, f.parent = some d.id ∧ h.parentOf f = some d := by
  obtain ⟨p, d, hp, hd, -⟩ := (hs.fitting.files f hf).parent
  have hmem := Sorted.mem_of_get? hd
  obtain rfl := Sorted.key_of_get? hd
  refine ⟨d, hmem, hp, ?_⟩
  rw [← h.head?_ancestors, habove, Store.ancestors, hp, hs.trees.climb_eq_cons hmem,
    List.head?_cons]

/-- A file is drawn in its district, after the districts above it. -/
theorem uniform_drawFile (cityId : String) (hs : s.Sound owner n) (hf : f ∈ s.files)
    (habove : h.ancestors f = s.ancestors f) :
    Uniform s (fun κ k => κ = .city ∧ k = cityId) (fun l => drawFile cityId h l f)
      (fun κ k => κ = .building ∧ k = f.buildingId)
      fun link k x => x = f.buildingId ∧
        (link = .cityBuilding ∧ k = cityId
          ∨ link = .districtBuilding ∧ k = h.districtOf cityId f) := by
  obtain ⟨d, hmem, hp, hparent⟩ := parentOf_of_ancestors hs hf habove
  have hclimb : h.ancestors f = climb s.directories.toList (some d.id) := by
    rw [habove, Store.ancestors, hp]
  have hdistrict : h.districtOf cityId f = d.id.text := by
    unfold HydratedCommit.districtOf
    rw [hparent]
  have hdown := descends hs cityId d hmem
  have habove : ∀ l, s.Faithful l → l.Has .city cityId →
      drawAbove cityId h l f = ((descend s cityId (some d) l).1, d.id.text) := by
    intro l hl hcity
    have hlast := hdown.last l hl hcity
    unfold drawAbove drawDistricts
    rw [hparent, hclimb]
    show ((descend s cityId (some d) l).1,
      ((descend s cityId (some d) l).2.map Prod.fst).getD "") = _
    rw [hlast]
    rfl
  have hbuilding : Uniform s
      (fun κ k => κ = .city ∧ k = cityId ∨ κ = .district ∧ k = d.id.text)
      (fun l => l.withBuilding (building cityId d.id.text f)) _ _ :=
    .of_adds (by decide) (fun l hneeded => adds_withBuilding
      (Option.isSome_map.symm.trans (hneeded _ _ (.inl ⟨rfl, rfl⟩)))
      (Option.isSome_map.symm.trans (hneeded _ _ (.inr ⟨rfl, rfl⟩))) rfl rfl) fun _ => rfl
  refine (hdown.uniform.comp hbuilding ?_).congr ?_ (fun _ _ => .inr) ?_
  · rintro κ k (hcity | ⟨rfl, rfl⟩)
    · exact .inl hcity
    · exact .inr ⟨rfl, d, rfl, rfl⟩
  · intro l hl hneeded
    rw [drawFile_eq, habove l hl (hneeded _ _ ⟨rfl, rfl⟩)]
  · intro link k x _
    rw [hdistrict, false_or, and_comm]
    refine and_congr_left fun _ => ?_
    cases link with
    | cityBuilding => simp [building, Building.entity, eq_comm]
    | districtBuilding => simp [building, Building.entity, eq_comm]
    | rootDistrict | district | subdistrict | buildingClass | buildingFunction | classFunction =>
      simp [building, Building.entity]

/-- A class is drawn in a building. -/
theorem uniform_drawClass (s : Store) (b : String) (c : ClassNode) :
    Uniform s (fun κ k => κ = .building ∧ k = b) (fun l => drawClass b l c)
      (fun κ k => κ = .classView ∧ k = stableId c.name)
      fun link k x => link = .buildingClass ∧ k = b ∧ x = stableId c.name := by
  refine (Uniform.of_adds (by decide) (fun l hneeded => adds_drawClass
    (Option.isSome_map.symm.trans (hneeded .building b ⟨rfl, rfl⟩)) c) fun _ => rfl).congr
    (fun _ _ _ => rfl) (fun _ _ => id) fun link k x _ => ?_
  cases link <;> simp [classView, ClassView.entity, eq_comm]

/-- A free function is drawn in a building. -/
theorem uniform_drawFreeFunction (s : Store) (b fqn : String) (g : FunctionNode) :
    Uniform s (fun κ k => κ = .building ∧ k = b) (fun l => drawFreeFunction b fqn l g)
      (fun κ k => κ = .functionView ∧ k = functionId fqn g.name)
      fun link k x => link = .buildingFunction ∧ k = b ∧ x = functionId fqn g.name := by
  refine (Uniform.of_adds (by decide) (fun l hneeded => adds_drawFreeFunction fqn
    (Option.isSome_map.symm.trans (hneeded .building b ⟨rfl, rfl⟩)) g) fun _ => rfl).congr
    (fun _ _ _ => rfl) (fun _ _ => id) fun link k x _ => ?_
  cases link <;> simp [eq_comm]

/-- A function is drawn in its class. -/
theorem uniform_drawMethod (s : Store) (fqn : String) (g : FunctionNode) :
    Uniform s (fun κ k => κ = .classView ∧ k = stableId fqn) (fun l => drawMethod fqn l g)
      (fun κ k => κ = .functionView ∧ k = functionId fqn g.name)
      fun link k x => link = .classFunction ∧ k = stableId fqn ∧ x = functionId fqn g.name := by
  refine (Uniform.of_adds (by decide) (fun l hneeded => adds_drawMethod
    (Option.isSome_map.symm.trans (hneeded .classView (stableId fqn) ⟨rfl, rfl⟩)) g) fun _ => rfl).congr
    (fun _ _ _ => rfl) (fun _ _ => id) fun link k x _ => ?_
  cases link <;> simp [eq_comm]

/-- The classes and the free functions of a file. -/
theorem uniform_drawContents (s : Store) (f : HydratedFile) :
    Uniform s (fun κ k => κ = .building ∧ k = f.file.buildingId) (fun l => l.drawContents f)
      (fun κ k => κ = .classView ∧ ∃ c ∈ f.classes, k = stableId c.node.name)
      fun link k x => k = f.file.buildingId ∧
        (link = .buildingClass ∧ (∃ c ∈ f.classes, x = stableId c.node.name)
          ∨ link = .buildingFunction
            ∧ ∃ g ∈ f.functions, x = functionId f.file.qualifiedName g.name) := by
  have hclasses := Uniform.foldl (f.classes.map HydratedClass.node)
    fun c _ => uniform_drawClass s f.file.buildingId c
  have hfunctions := Uniform.foldl f.functions
    fun g _ => uniform_drawFreeFunction s f.file.buildingId f.file.qualifiedName g
  refine (hclasses.comp hfunctions fun _ _ => .inl).congr (fun _ _ _ => rfl) (fun κ k => ?_) ?_
  · rintro ⟨rfl, c, hc, rfl⟩
    exact .inl ⟨c.node, List.mem_map_of_mem hc, rfl, rfl⟩
  · intro link k x _
    simp only [List.mem_map, exists_exists_and_eq_and]
    simp only [and_or_left, ← exists_and_left, and_left_comm]

/-- The functions of a class. -/
theorem uniform_drawMethods (s : Store) (c : HydratedClass) :
    Uniform s (fun κ k => κ = .classView ∧ k = stableId c.node.name) (fun l => l.drawMethods c)
      (fun _ _ => False)
      fun link k x => ∃ g ∈ c.functions,
        link = .classFunction ∧ k = stableId c.node.name ∧ x = functionId c.node.name g.name :=
  (Uniform.foldl c.functions fun g _ => uniform_drawMethod s c.node.name g).congr
    (fun _ _ _ => rfl) (fun _ _ => False.elim) fun _ _ _ _ => .rfl

theorem uniform_drawCity (s : Store) (name : String) :
    Uniform s (fun _ _ => False) (fun l => l.drawCity name)
      (fun κ k => κ = .city ∧ k = stableId name) fun _ _ _ => False :=
  (Uniform.of_adds (by decide) (fun l _ => adds_drawCity l name) fun _ => rfl).congr
    (fun _ _ _ => rfl) (fun _ _ => id) fun _ _ _ _ => by simp

/-- The files of a commit of the store. -/
theorem uniform_drawFiles (hs : s.Sound owner n) (cityId : String) (c : Commit) :
    Uniform s (fun κ k => κ = .city ∧ k = cityId)
      (fun l => ((s.hydrate c).files.map HydratedFile.file).foldl
        (drawFile cityId (s.hydrate c)) l)
      (fun κ k => κ = .building ∧ ∃ f ∈ (s.hydrate c).files, k = f.file.buildingId)
      fun link k x => ∃ f ∈ (s.hydrate c).files, x = f.file.buildingId ∧
        (link = .cityBuilding ∧ k = cityId
          ∨ link = .districtBuilding ∧ k = (s.hydrate c).districtOf cityId f.file) := by
  have hfile : ∀ f ∈ (s.hydrate c).files.map HydratedFile.file,
      Uniform s (fun κ k => κ = .city ∧ k = cityId)
        (fun l => drawFile cityId (s.hydrate c) l f) (fun κ k => κ = .building ∧ k = f.buildingId)
        fun link k x => x = f.buildingId ∧ (link = .cityBuilding ∧ k = cityId
          ∨ link = .districtBuilding ∧ k = (s.hydrate c).districtOf cityId f) := by
    intro f hf
    obtain ⟨f', hf', rfl⟩ := List.mem_map.1 hf
    obtain ⟨g, -, hg, rfl⟩ := Store.mem_files_hydrate.1 hf'
    exact uniform_drawFile cityId hs (Sorted.mem_of_get? hg) (Store.ancestors_hydrate hf')
  refine (Uniform.foldl _ hfile).congr (fun _ _ _ => rfl) (fun κ k => ?_) fun link k x _ => ?_
  · rintro ⟨rfl, f, hf, rfl⟩
    exact ⟨f.file, List.mem_map_of_mem hf, rfl, rfl⟩
  · simp only [List.mem_map, exists_exists_and_eq_and]

/-- A commit of the store brings the same entities onto every landscape, and everything it has is
placed where it says and nowhere else. -/
theorem uniform_drawCommit (hs : s.Sound owner n) (city : String) (c : Commit) :
    Uniform s (fun _ _ => False) (fun l => l.drawCommit city (s.hydrate c))
      (fun _ _ => False) ((s.hydrate c).Places city) := by
  let files := (s.hydrate c).files
  -- contents need their building, and the functions of a class need the class
  let buildings κ k := κ = EntityKind.building ∧ ∃ f ∈ files, k = f.file.buildingId
  let classes κ k := κ = EntityKind.classView ∧
    ∃ m ∈ files.flatMap HydratedFile.classes, k = stableId m.node.name
  have hcity := uniform_drawCity s city
  have hfiles := uniform_drawFiles hs (stableId city) c
  have hcontent : ∀ f ∈ files, Uniform s buildings _ _ _ := fun f hf =>
    (uniform_drawContents s f).needing fun κ k hk => ⟨hk.1, f, hf, hk.2⟩
  have hmethod : ∀ m ∈ files.flatMap HydratedFile.classes, Uniform s classes _ _ _ := fun m hm =>
    (uniform_drawMethods s m).needing fun κ k hk => ⟨hk.1, m, hm, hk.2⟩
  have hcontents := Uniform.foldl files hcontent
  have hmethods := Uniform.foldl (files.flatMap HydratedFile.classes) hmethod
  refine (((hcity.comp hfiles fun _ _ => .inr).comp hcontents fun _ _ => ?_).comp hmethods ?_).congr
    (fun _ _ _ => rfl) (fun _ _ => False.elim) ?_
  · exact fun hk => .inr (.inr hk)
  · rintro κ k ⟨rfl, m, hm, rfl⟩
    obtain ⟨f, hf, hm⟩ := List.mem_flatMap.1 hm
    exact .inr (.inr ⟨f, hf, rfl, m, hm, rfl⟩)
  · intro link k x hlink
    cases link with
    | rootDistrict | district | subdistrict => exact absurd rfl hlink
    | cityBuilding | districtBuilding | buildingClass | buildingFunction =>
      simp [HydratedCommit.Places, HydratedCommit.isIn_iff, FileRevision.hasKey_iff,
        FileRevision.hasFqn_iff, functionId, files, and_comm]
    | classFunction =>
      simp only [HydratedCommit.Places, files, List.mem_flatMap, reduceCtorEq, false_and, or_self,
        and_false, exists_false, false_or, true_and]
      constructor
      · rintro ⟨f, hf, m, hm, rfl, g, hg, rfl⟩
        exact ⟨m, ⟨f, hf, hm⟩, g, hg, rfl, rfl⟩
      · rintro ⟨m, ⟨f, hf, hm⟩, g, hg, rfl, rfl⟩
        exact ⟨f, hf, m, hm, rfl, g, hg, rfl⟩

end Landscape

namespace Store

variable {owner : NodeId → String} {n : Nat} {s : Store}

theorem faithful_ofToken (s : Store) (token : String) :
    s.Faithful (Landscape.ofToken token) := fun _ _ he => by cases he

/-- In the landscape of some commits of the store, everything but a district is listed where a
commit places it and nowhere else. -/
theorem Sound.mem_list_ofCommits (hs : s.Sound owner n) (token : String) (city : Commit → String)
    (cs : List Commit) {link : Link} (hlink : link.child ≠ .district) (k x : String) :
    x ∈ (Landscape.ofCommits token (cs.map fun c => (city c, s.hydrate c))).list link k ↔
      ∃ c ∈ cs, (s.hydrate c).Places (city c) link k x := by
  obtain ⟨new, -, -, hmerges⟩ :=
    Landscape.Uniform.foldl cs fun c _ => Landscape.uniform_drawCommit hs (city c) c
  have hlist := (hmerges (Landscape.ofToken token) (s.faithful_ofToken token)
    fun _ _ => False.elim).list link k x hlink
  have hempty : x ∉ (Landscape.ofToken token).list link k := by
    cases link <;> exact List.not_mem_nil
  rw [or_iff_right hempty] at hlist
  unfold Landscape.ofCommits
  rw [List.foldl_map]
  exact hlist

end Store

end Cityscape
